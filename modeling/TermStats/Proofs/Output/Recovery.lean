import TermStats.Proofs.Output.Harmless
import TermStats.Proofs.Wire.CutRecord

/-!
Streams that are closed on a socket that failed and works again. Closing completes the stream as
long as every failed call was harmless: nothing of it is on its way, or a term as a whole, or the
markers of an earlier closing. What has been written of any other call stays in front of the
markers; what the socket took of a buffer that it refused comes twice; and so does a marker that is
on its way although its call failed.
-/

namespace TermStats

open Wire (Encoder EncoderCall Event Scope decodeStream)

section Failures

variable {b b' : BufferedSocket} {f : Fault}

/-- A flush that fails leaves the whole buffer on its way, behind what the socket has taken of it
when it refuses the rest. -/
theorem BufferedSocket.delivered_flush_failed (h : b.flush = (.error f, b')) :
    ∃ taken, taken <+: b.buffer ∧ b'.delivered = b.socket.sent ++ (taken ++ b.buffer) := by
  simp only [flush] at h
  split at h
  · obtain ⟨-, rfl⟩ := Prod.mk.inj h
    exact ⟨[], List.nil_prefix, congrArg (· ++ b.buffer) (Socket.sent_flush _)⟩
  · split at h
    · rename_i hw
      obtain ⟨-, rfl⟩ := Prod.mk.inj h
      obtain ⟨taken, first, sent⟩ := Socket.sent_write b.socket b.buffer
      rw [hw] at sent
      refine ⟨taken, first, ?_⟩
      rw [delivered, sent, List.append_assoc]
    · rename_i hw
      obtain ⟨-, rfl⟩ := Prod.mk.inj h
      refine ⟨[], List.nil_prefix, ?_⟩
      rw [delivered, List.append_nil, Socket.sent_flush, Socket.write_ok hw, List.nil_append]

/-- A write that fails has brought a beginning of its data into a buffer whose flush fails. -/
theorem BufferedSocket.exists_full {data : Bytes} (h : b.write data = (.error f, b')) :
    ∃ full : BufferedSocket, ∃ part, part <+: data ∧ b.socket.Later full.socket ∧
      full.delivered = b.delivered ++ part ∧ full.flush = (.error f, b') := by
  fun_induction write b data with
  | case1 | case2 => cases h
  | case3 b data _ _ _ _ hf =>
      cases h
      exact ⟨{ b with buffer := b.buffer ++ data.take b.room }, data.take b.room,
        List.take_prefix _ _, .refl, (List.append_assoc _ _ _).symm, hf⟩
  | case4 b data _ _ _ b₁ hf ih =>
      obtain ⟨full, part, first, later, hfull, failure⟩ := ih h
      have flushed := later_flush { b with buffer := b.buffer ++ data.take b.room }
      rw [hf] at flushed
      refine ⟨full, data.take b.room ++ part, ?_, flushed.trans later, ?_, failure⟩
      · have together := (List.prefix_append_right_inj (data.take b.room)).mpr first
        rwa [List.take_append_drop] at together
      · rw [hfull, delivered_flush_ok hf]
        simp only [delivered, List.append_assoc]

theorem BufferedSocket.delivered_flush_whole {start : Socket} (whole : start.AcceptsWhole)
    (later : start.Later b.socket) (h : b.flush = (.error f, b')) : b'.delivered = b.delivered := by
  simp only [flush] at h
  split at h
  · obtain ⟨-, rfl⟩ := Prod.mk.inj h
    rw [delivered, delivered, Socket.sent_flush]
  · rename_i some_bytes
    split at h
    · rename_i hw
      obtain ⟨-, rfl⟩ := Prod.mk.inj h
      have failed : (b.socket.write b.buffer).1 ≠ .ok () := by
        rw [hw]
        intro ok
        cases ok
      have same := whole _ later _ some_bytes failed
      rw [hw] at same
      exact congrArg (· ++ b.buffer) same
    · rename_i hw
      obtain ⟨-, rfl⟩ := Prod.mk.inj h
      rw [delivered, delivered, List.append_nil, Socket.sent_flush, Socket.write_ok hw]

end Failures

namespace OutputStream

/-- The bytes that a call has for the socket. -/
def bytesOf (s : OutputStream) : StreamCall → Bytes
  | .write c => (s.encoder.call c).1.toOption.getD []
  | .flush => []
  | .close => s.missingMarkers

/-- How a call fails on the socket. With `part` of its bytes the buffer is `full` when its flush
fails, the socket has `taken` the first bytes of it, and all of it stays on its way. -/
structure Spills (s : OutputStream) (c : StreamCall) (full : BufferedSocket)
    (part taken : Bytes) : Prop where
  begins : part <+: s.bytesOf c
  reaches : s.socket.socket.Later full.socket
  fills : full.delivered = s.socket.delivered ++ part
  fails : ∃ f, full.flush = (.error f, (s.call c).2.socket)
  takes : taken <+: full.buffer
  leaves : (s.call c).2.socket.delivered = full.socket.sent ++ (taken ++ full.buffer)

/-- What a stream will have sent when it is closed now. -/
def whenClosed (s : OutputStream) : Bytes :=
  s.socket.delivered ++ s.missingMarkers

theorem missingMarkers_congr {s s' : OutputStream} (fieldOpen : s'.fieldOpen = s.fieldOpen)
    (endWritten : s'.endWritten = s.endWritten) : s'.missingMarkers = s.missingMarkers := by
  rw [missingMarkers, missingMarkers, fieldOpen, endWritten]
  rfl

theorem Carries.missingMarkers {s : OutputStream} {base : Bytes} {events : List Event}
    {scope : Scope} (carries : s.Carries base events scope) : s.missingMarkers = scope.markers := by
  rw [OutputStream.missingMarkers, carries.fieldOpen, carries.endWritten]
  cases scope <;> rfl

section Spills

variable {s : OutputStream} {c : StreamCall} {full : BufferedSocket} {part taken : Bytes}

theorem exists_spills {f : Fault} (begins : part <+: s.bytesOf c)
    (reaches : s.socket.socket.Later full.socket)
    (fills : full.delivered = s.socket.delivered ++ part)
    (fails : full.flush = (.error f, (s.call c).2.socket)) :
    ∃ taken, s.Spills c full part taken := by
  obtain ⟨taken, takes, leaves⟩ := BufferedSocket.delivered_flush_failed fails
  exact ⟨taken, begins, reaches, fills, ⟨f, fails⟩, takes, leaves⟩

/-- A socket whose failing writes take nothing has taken nothing. -/
theorem Spills.taken_eq_nil {start : Socket} (spills : s.Spills c full part taken)
    (whole : start.AcceptsWhole) (later : start.Later s.socket.socket) : taken = [] := by
  obtain ⟨f, fails⟩ := spills.fails
  have same := BufferedSocket.delivered_flush_whole whole (later.trans spills.reaches) fails
  have sizes := congrArg List.length (spills.leaves.symm.trans same)
  simp only [BufferedSocket.delivered, List.length_append] at sizes
  exact List.eq_nil_of_length_eq_zero (by omega)

/-- When the socket takes nothing, a part of the bytes of the call is on its way, and no more. -/
theorem Spills.delivered (spills : s.Spills c full part []) :
    (s.call c).2.socket.delivered = s.socket.delivered ++ part :=
  spills.leaves.trans spills.fills

theorem Spills.whenClosed (spills : s.Spills c full part taken) :
    (s.call c).2.whenClosed =
      full.socket.sent ++ (taken ++ (full.buffer ++ (s.call c).2.missingMarkers)) := by
  rw [OutputStream.whenClosed, spills.leaves, List.append_assoc, List.append_assoc]

/-- A flush does harm only when the socket takes a part of the buffer. -/
theorem spills_flush (failed : (s.call .flush).1 ≠ .ok ()) (harmful : ¬ s.Harmless .flush) :
    ∃ taken, s.Spills .flush s.socket [] taken ∧ taken ≠ [] := by
  rw [call, OutputStream.flush, settle_fst] at failed
  cases hf : s.socket.flush with
  | mk x b =>
      rw [hf] at failed
      cases x with
      | ok _ => exact absurd rfl failed
      | error f =>
          have socket : (s.call .flush).2.socket = b := by
            rw [call, OutputStream.flush, socket_settle, hf]
          obtain ⟨taken, spills⟩ := exists_spills (c := .flush) List.nil_prefix .refl
            (List.append_nil _).symm (by rw [hf, socket])
          refine ⟨taken, spills, ?_⟩
          rintro rfl
          refine harmful (.unchanged (spills.delivered.trans (List.append_nil _)) ?_ ?_) <;>
            (rw [call, OutputStream.flush, hf]; cases f <;> rfl)

/-- A closing that does harm while the socket takes nothing leaves some of the markers on their way,
which do not count. -/
theorem spills_close (failed : (s.call .close).1 ≠ .ok ()) (harmful : ¬ s.Harmless .close) :
    ∃ full part taken, s.Spills .close full part taken ∧
      (taken = [] → (s.call .close).2.fieldOpen = s.fieldOpen ∧
        (s.call .close).2.endWritten = s.endWritten ∧ part ≠ []) := by
  have outcome := s.close_cases
  generalize hr : s.closeAfterFailure = r at outcome
  cases outcome with
  | ended =>
      rw [call, hr] at failed
      exact absurd rfl failed
  | @unflushed b b' f written failure =>
      have reaches := BufferedSocket.later_write s.socket s.missingMarkers
      rw [written] at reaches
      obtain ⟨taken, spills⟩ := exists_spills (s := s) (c := .close) List.prefix_rfl reaches
        (BufferedSocket.write_ok written) (by rw [failure, call, hr])
      refine ⟨_, _, taken, spills, ?_⟩
      rintro rfl
      have delivered := spills.delivered
      exact absurd (.close delivered (by rw [hr]) (by rw [hr])) harmful
  | @unwritten b f failure =>
      obtain ⟨full, part, first, reaches, fills, fails⟩ := BufferedSocket.exists_full failure
      obtain ⟨taken, spills⟩ := exists_spills (s := s) (c := .close) first reaches fills
        (by rw [fails, call, hr])
      refine ⟨_, _, taken, spills, ?_⟩
      rintro rfl
      have fieldOpen : (s.call .close).2.fieldOpen = s.fieldOpen := by rw [call, hr]
      have endWritten : (s.call .close).2.endWritten = s.endWritten := by rw [call, hr]
      refine ⟨fieldOpen, endWritten, ?_⟩
      rintro rfl
      have same := spills.delivered.trans (List.append_nil _)
      exact harmful (.unchanged same fieldOpen endWritten)

/-- A writing call that does harm while the socket takes nothing leaves a part of its record on its
way, or a marker that does not count. -/
theorem spills_write {c : EncoderCall} (never : s.socket.socket.behaviour.NeverPanics)
    (failed : (s.write c).1 ≠ .ok ()) (harmful : ¬ s.Harmless (.write c)) :
    s.state = c.expected ∧ ∃ record encoder full part taken,
      s.encoder.call c = (.ok record, encoder) ∧ s.Spills (.write c) full part taken ∧
      (taken = [] → part <+: record ∧ part ≠ [] ∧ (part = record → c.isTerm = false)) := by
  obtain ⟨-, fieldOpen, endWritten, outcome⟩ := s.write_failed never failed
  have changed (same : (s.write c).2.socket.delivered = s.socket.delivered) : False :=
    harmful (.unchanged same fieldOpen endWritten)
  rcases outcome with same | ⟨expected, record, encoder, f, encoded, failure⟩
  · exact (changed (by rw [same])).elim
  · obtain ⟨full, part, first, reaches, fills, fails⟩ := BufferedSocket.exists_full failure
    have bytes : s.bytesOf (.write c) = record := by
      rw [bytesOf, encoded]
      rfl
    obtain ⟨taken, spills⟩ :=
      exists_spills (s := s) (c := .write c) (by rwa [bytes]) reaches fills fails
    refine ⟨expected, record, encoder, full, part, taken, encoded, spills, ?_⟩
    rintro rfl
    refine ⟨first, ?_, ?_⟩
    · rintro rfl
      exact changed (spills.delivered.trans (List.append_nil _))
    · rintro rfl
      cases c with
      | fieldStart | fieldEnd | streamEnd => rfl
      | term id docFreq groups stats =>
          simp only [Encoder.call] at encoded
          split at encoded
          · cases encoded
          · rename_i hterm
            cases encoded
            exact absurd (.term hterm spills.delivered) harmful

end Spills

section Harmful

variable {s s' : OutputStream} {base : Bytes} {events : List Event} {scope : Scope}

theorem sent_close (ok : s.closeAfterFailure.1 = .ok ()) :
    s.closeAfterFailure.2.socket.socket.sent = s.whenClosed := by
  obtain ⟨sent, empty, -⟩ := delivered_close (Prod.ext ok rfl)
  rwa [BufferedSocket.delivered, empty, List.append_nil] at sent

theorem whenClosed_congr (delivered : s'.socket.delivered = s.socket.delivered)
    (fieldOpen : s'.fieldOpen = s.fieldOpen) (endWritten : s'.endWritten = s.endWritten) :
    s'.whenClosed = s.whenClosed := by
  rw [whenClosed, delivered, missingMarkers_congr fieldOpen endWritten, whenClosed]

/-- Markers that are on their way and count as written are not sent again. -/
theorem whenClosed_of_closed
    (delivered : s'.socket.delivered = s.socket.delivered ++ s.missingMarkers)
    (fieldOpen : s'.fieldOpen = false) (endWritten : s'.endWritten = true) :
    s'.whenClosed = s.whenClosed := by
  have complete : s'.missingMarkers = [] := by
    rw [missingMarkers, fieldOpen, endWritten]
    rfl
  rw [whenClosed, delivered, complete, List.append_nil, whenClosed]

/-- Once no record is written any more, calls that do no harm leave what a closing will have sent
alone: the markers go on their way once. -/
theorem Shut.whenClosed_call (shut : s.Shut) {c : StreamCall}
    (fine : (s.call c).1 = .ok () ∨ s.Harmless c) : (s.call c).2.whenClosed = s.whenClosed := by
  cases c with
  | write w =>
      obtain ⟨e, h⟩ := shut.write w
      rw [OutputStream.call, h]
      rfl
  | flush =>
      rcases fine with ok | harmless
      · rw [OutputStream.call, OutputStream.flush, settle_fst] at ok
        have flushed : s.socket.flush = (.ok (), s.socket.flush.2) := Prod.ext ok rfl
        have same : (s.call .flush).2 = { s with socket := s.socket.flush.2 } := by
          rw [OutputStream.call, OutputStream.flush, flushed]
          rfl
        rw [same]
        exact whenClosed_congr (BufferedSocket.delivered_flush_ok flushed) rfl rfl
      · cases harmless with
        | unchanged delivered fieldOpen endWritten =>
            exact whenClosed_congr delivered fieldOpen endWritten
  | close =>
      rcases fine with ok | harmless
      · obtain ⟨delivered, -, fieldOpen, endWritten⟩ := delivered_close (Prod.ext ok rfl)
        exact whenClosed_of_closed delivered fieldOpen endWritten
      · cases harmless with
        | unchanged delivered fieldOpen endWritten =>
            exact whenClosed_congr delivered fieldOpen endWritten
        | close delivered fieldOpen endWritten =>
            exact whenClosed_of_closed delivered fieldOpen endWritten

theorem Shut.whenClosed_after (shut : s.Shut) {calls : List StreamCall}
    (unharmed : s.Unharmed calls) : (s.after calls).whenClosed = s.whenClosed := by
  induction calls generalizing s with
  | nil => rfl
  | cons c rest ih =>
      exact (ih (shut.call c) unharmed.2).trans (shut.whenClosed_call unharmed.1)

theorem shut_of_failed (never : s.socket.socket.behaviour.NeverPanics) {c : StreamCall}
    (failed : (s.call c).1 ≠ .ok ()) : (s.call c).2.Shut := by
  cases c with
  | write w => exact (s.write_failed never failed).1
  | flush =>
      rw [call, OutputStream.flush] at failed ⊢
      cases hf : s.socket.flush with
      | mk x b =>
          rw [hf] at failed
          cases x with
          | ok _ => exact absurd rfl failed
          | error f =>
              cases f with
              | error _ => exact .inr rfl
              | panic p => exact absurd rfl (BufferedSocket.flush_neverPanics (p := p) never hf)
  | close => exact s.shut_closeAfterFailure

/-- What a failed call has left behind stands between the records and the markers of a closing. -/
theorem Carries.rejected (carries : s.Carries base events scope) {part : Bytes}
    (delivered : s'.socket.delivered = s.socket.delivered ++ part)
    (fieldOpen : s'.fieldOpen = s.fieldOpen) (endWritten : s'.endWritten = s.endWritten)
    (rejected : ∀ bytes e, Encoder.start.events events = .ok (bytes, e) →
      (¬ s.Shut → e = s.encoder) →
        ∃ f, decodeStream (bytes ++ (part ++ scope.markers)) = .error f) :
    ∃ bytes f, s'.whenClosed = base ++ bytes ∧ decodeStream bytes = .error f := by
  obtain ⟨bytes, e, hevents, hdelivered, behind⟩ := carries.records
  have markers : s'.missingMarkers = scope.markers :=
    (missingMarkers_congr fieldOpen endWritten).trans carries.missingMarkers
  obtain ⟨f, hf⟩ := rejected bytes e hevents behind
  refine ⟨_, f, ?_, hf⟩
  rw [whenClosed, delivered, hdelivered, markers]
  simp only [List.append_assoc]

/-- A call that fails with harm spills. When it is the first to do so and the socket takes nothing
meanwhile, a closing will have sent what is no stream. -/
theorem spills_of_harmful (never : s.socket.socket.behaviour.NeverPanics) {c : StreamCall}
    (fits : ∀ w, c = .write w → w.Fits) (failed : (s.call c).1 ≠ .ok ())
    (harmful : ¬ s.Harmless c) :
    ∃ full part taken, s.Spills c full part taken ∧ ∀ {base kind passed},
      s.Sound base kind passed → c.OfKind kind → taken = [] →
        ∃ bytes f, (s.call c).2.whenClosed = base ++ bytes ∧ decodeStream bytes = .error f := by
  cases c with
  | flush =>
      obtain ⟨taken, spills, some_bytes⟩ := spills_flush failed harmful
      exact ⟨_, _, taken, spills, fun _ _ none => absurd none some_bytes⟩
  | close =>
      obtain ⟨full, part, taken, spills, leaves⟩ := spills_close failed harmful
      refine ⟨full, part, taken, spills, ?_⟩
      rintro base kind passed ⟨events, scope, carries, leads, -, -⟩ - rfl
      obtain ⟨fieldOpen, endWritten, some_part⟩ := leaves rfl
      have cut : part <+: scope.markers := carries.missingMarkers ▸ spills.begins
      refine carries.rejected spills.delivered fieldOpen endWritten fun bytes e hevents _ => ?_
      exact Wire.rejected_of_markers leads hevents cut some_part
  | write w =>
      obtain ⟨-, fieldOpen, endWritten, -⟩ := s.write_failed never failed
      obtain ⟨expected, record, encoder, full, part, taken, encoded, spills, leaves⟩ :=
        spills_write never failed harmful
      refine ⟨full, part, taken, spills, ?_⟩
      rintro base kind passed ⟨events, scope, carries, leads, -, all⟩ ofKind rfl
      obtain ⟨cut, some_part, marker⟩ := leaves rfl
      have going := not_shut_of_expected expected
      obtain ⟨rfl, -⟩ := all going
      have follows := follows_of_expected (carries.state going) expected
      have allowed := EncoderCall.allowed_of_call encoded follows (carries.stats going)
        (fits w rfl) ofKind
      obtain ⟨hevent, same, -⟩ := EncoderCall.event_of_call encoded
      refine carries.rejected spills.delivered fieldOpen endWritten
        fun bytes e hevents behind => ?_
      obtain rfl := behind going
      refine Wire.rejected_of_not_ends leads hevents fun d tracks => ?_
      by_cases complete : part = record
      · rw [complete]
        exact Wire.not_ends_of_marker allowed tracks hevent (same.symm ▸ marker complete)
      · exact Wire.not_ends_of_cut allowed tracks hevent cut complete some_part

end Harmful

end OutputStream

open OutputStream (onSocket)

/-- Let a stream be closed on a socket that failed before and works again. If every call that failed
was harmless, what has been accepted is a complete stream, whose terms are the first that were
passed. Otherwise let `c` be the last call that did harm. Then these bytes have been accepted: what
was on its way before it and the part of its own bytes that came into the buffer, with what the
socket took of the last buffer in front of that buffer, and then the markers that still counted as
missing. When no other call did harm, what was on its way before are whole records, of the first
terms; and when the socket took nothing of the buffer, as sockets do that take all or nothing, this
is no stream, although closing reports success. Nothing more is said of bytes that were taken twice
or that several calls left behind: they can make up for what is missing. -/
theorem closed_after_failures {socket : Socket} (never : socket.behaviour.NeverPanics)
    (capacity : Nat) (calls : List StreamCall) (fits : ∀ w, .write w ∈ calls → w.Fits)
    (kinds : (onSocket socket capacity).KeepsKinds none calls)
    (closed : ((onSocket socket capacity).after calls).closeAfterFailure.1 = .ok ()) :
    let s := onSocket socket capacity
    let sent := (s.after calls).closeAfterFailure.2.socket.socket.sent
    (s.Unharmed calls ∧
      ∃ bytes events, sent = socket.sent ++ bytes ∧ decodeStream bytes = .ok events ∧
        EncoderCall.terms (events.map .ofEvent) <+:
          EncoderCall.terms (calls.flatMap (·.written))) ∨
    ∃ before c later full part taken, calls = before ++ c :: later ∧
      ((s.after before).call c).1 ≠ .ok () ∧ ¬ (s.after before).Harmless c ∧
      ((s.after before).call c).2.Unharmed later ∧
      (s.after before).Spills c full part taken ∧ (socket.AcceptsWhole → taken = []) ∧
      sent = full.socket.sent ++
        (taken ++ (full.buffer ++ ((s.after before).call c).2.missingMarkers)) ∧
      (s.Unharmed before →
        (∃ events records encoder, Encoder.start.events events = .ok (records, encoder) ∧
          (s.after before).socket.delivered = socket.sent ++ records ∧
          EncoderCall.terms (events.map .ofEvent) <+:
            EncoderCall.terms (before.flatMap (·.written))) ∧
        (taken = [] →
          ∃ bytes f, sent = socket.sent ++ bytes ∧ decodeStream bytes = .error f)) := by
  intro s sent
  have sound := OutputStream.sound_onSocket socket capacity
  rcases s.unharmed_or_last calls with
    unharmed | ⟨before, c, later, rfl, failed, harmful, unharmed⟩
  · rw [← List.append_nil calls] at kinds
    obtain ⟨kind, sound, -⟩ := sound.after never fits kinds unharmed
    obtain ⟨events, scope, carries, leads, first, -⟩ := sound
    obtain ⟨ended, empty⟩ := carries.close_ok (Prod.ext closed rfl)
    obtain ⟨bytes, e, hevents⟩ := Wire.events_ok leads.closing (Wire.tracks_start [])
    refine .inl ⟨unharmed, bytes, _, ended.sent empty hevents,
      Wire.decodeStream_encode leads.closing hevents, ?_⟩
    rw [List.map_append, EncoderCall.terms_append, scope.terms_closing, List.append_nil]
    exact first
  · have fitsBefore (w : EncoderCall) (h : .write w ∈ before) : w.Fits :=
      fits w (List.mem_append_left _ h)
    have fitsHere (w : EncoderCall) (h : c = .write w) : w.Fits := by
      apply fits
      rw [h]
      exact List.mem_append_right _ List.mem_cons_self
    have never' : (s.after before).socket.socket.behaviour.NeverPanics :=
      (s.later_after before).behaviour ▸ never
    have all : sent = ((s.after before).call c).2.whenClosed := by
      have shut := OutputStream.shut_of_failed never' failed
      have last : s.after (before ++ c :: later) = ((s.after before).call c).2.after later :=
        s.after_append before (c :: later)
      rw [← shut.whenClosed_after unharmed, ← last]
      exact OutputStream.sent_close closed
    obtain ⟨full, part, taken, spills, rejected⟩ :=
      OutputStream.spills_of_harmful never' fitsHere failed harmful
    refine .inr ⟨before, c, later, full, part, taken, rfl, failed, harmful, unharmed, spills,
      fun whole => spills.taken_eq_nil whole (s.later_after before), all.trans spills.whenClosed,
      fun unharmedBefore => ?_⟩
    obtain ⟨kind, sound, ofKind, -⟩ := sound.after never fitsBefore kinds unharmedBefore
    refine ⟨?_, fun none => ?_⟩
    · obtain ⟨events, scope, carries, -, first, -⟩ := sound
      obtain ⟨records, encoder, hevents, delivered, -⟩ := carries.records
      exact ⟨events, records, encoder, hevents, delivered, first⟩
    · rw [all]
      exact rejected sound ofKind none

/-- Accepts all writes; the second call, if it is a flush, fails. -/
def SocketBehaviour.faltering : SocketBehaviour where
  onWrite _ _ _ := .accepted
  onFlush calls _ := if calls = 1 then .failed "flush failed" else .flushed

theorem SocketBehaviour.faltering_neverPanics : faltering.NeverPanics := by
  refine ⟨fun _ _ _ _ => nofun, fun calls _ _ => ?_⟩
  simp only [faltering]
  split <;> exact nofun

theorem Socket.acceptsWhole_of_faltering : (Socket.ofBehaviour .faltering).AcceptsWhole := by
  intro s' later data _ failed
  have accepts : s'.behaviour = .faltering := later.behaviour
  simp [write, accepts, SocketBehaviour.faltering] at failed

/-- A field with one term, and a flush. -/
def flushedCalls : List StreamCall :=
  [.write (.fieldStart "f" .int 0), .write (.term (.int 7) 1 [] []), .flush]

/-- The start of a field, and a closing. -/
def cutCalls : List StreamCall :=
  [.write (.fieldStart "f" .int 0), .close]

theorem fits_flushedCalls {w : EncoderCall} (h : .write w ∈ flushedCalls) : w.Fits := by
  simp only [flushedCalls, List.mem_cons, StreamCall.write.injEq, reduceCtorEq, List.not_mem_nil,
    or_false] at h
  rcases h with rfl | rfl
  · exact ⟨by decide, by decide⟩
  · trivial

theorem fits_cutCalls {w : EncoderCall} (h : .write w ∈ cutCalls) : w.Fits := by
  simp only [cutCalls, List.mem_cons, StreamCall.write.injEq, reduceCtorEq, List.not_mem_nil,
    or_false] at h
  rw [h]
  exact ⟨by decide, by decide⟩

/-- The records stay in a large buffer until the flush, whose failure changes nothing. -/
theorem unharmed_flushedCalls :
    (onSocket (.ofBehaviour .faltering) 64).Unharmed flushedCalls := by
  refine ⟨.inl (Result.ok_of_isOk (by decide +kernel)),
    .inl (Result.ok_of_isOk (by decide +kernel)), .inr ?_, trivial⟩
  exact .unchanged (by decide +kernel) (by decide +kernel) (by decide +kernel)

/-- A small buffer is full within the first record. -/
theorem not_unharmed_cutCalls :
    ¬ (onSocket (.ofBehaviour .faltering) 4).Unharmed cutCalls := by
  rintro ⟨ok | harmless, -⟩
  · have failed : ((onSocket (.ofBehaviour .faltering) 4).call
        (.write (.fieldStart "f" .int 0))).1.isOk = false := by decide +kernel
    rw [ok] at failed
    cases failed
  · cases harmless with
    | unchanged delivered => exact absurd delivered (by decide +kernel)

/-- A large buffer is written out by the flush, whose failure does no harm. A small one is full
within the first record, whose last byte is lost when the socket falters; both closings succeed. -/
theorem closed_after_failures_faltering :
    let s := onSocket (.ofBehaviour .faltering)
    (∃ events,
      decodeStream ((s 64).after flushedCalls).closeAfterFailure.2.socket.socket.sent = .ok events ∧
        EncoderCall.terms (events.map .ofEvent) <+: [.term (.int 7) 1 [] []]) ∧
    ∃ f, ((s 4).after cutCalls).closeAfterFailure.1 = .ok () ∧
      ((s 4).after cutCalls).closeAfterFailure.2.socket.socket.sent = [1, 1, 1, 102, 4] ∧
      decodeStream [1, 1, 1, 102, 4] = .error f := by
  intro s
  have never : (Socket.ofBehaviour .faltering).behaviour.NeverPanics :=
    SocketBehaviour.faltering_neverPanics
  constructor
  · rcases closed_after_failures never 64 flushedCalls (fun _ => fits_flushedCalls)
      (by decide +kernel) (Result.ok_of_isOk (by decide +kernel)) with
      ⟨-, bytes, events, sent, decoded, first⟩ | ⟨_, _, _, _, _, _, split, failed, harmful, -⟩
    · refine ⟨events, ?_, first⟩
      rw [sent]
      exact decoded
    · exact absurd (unharmed_flushedCalls.at split) (not_or.mpr ⟨failed, harmful⟩)
  · have closed : ((s 4).after cutCalls).closeAfterFailure.1 = .ok () :=
      Result.ok_of_isOk (by decide +kernel)
    have closes : ((s 4).after (cutCalls.take 1)).closeAfterFailure.1 = .ok () :=
      Result.ok_of_isOk (by decide +kernel)
    rcases closed_after_failures never 4 cutCalls (fun _ => fits_cutCalls) (by decide +kernel)
      closed with
      ⟨unharmed, -⟩ | ⟨before, _, _, _, _, taken, split, failed, -, -, -, none, -, rejected⟩
    · exact absurd unharmed not_unharmed_cutCalls
    rcases before with _ | ⟨_, _ | ⟨_, before⟩⟩
    · obtain ⟨-, rejected⟩ := rejected trivial
      obtain ⟨bytes, f, sent, rejected⟩ := rejected (none Socket.acceptsWhole_of_faltering)
      have accepted : ((s 4).after cutCalls).closeAfterFailure.2.socket.socket.sent =
          [1, 1, 1, 102, 4] := by decide +kernel
      have same : bytes = [1, 1, 1, 102, 4] := sent.symm.trans accepted
      exact ⟨f, closed, accepted, same ▸ rejected⟩
    · cases split
      exact absurd closes failed
    · simp [cutCalls] at split

/-- Fails the third call, a write, after its first byte. -/
def SocketBehaviour.repeating : SocketBehaviour where
  onWrite calls _ _ := if calls = 2 then .failed 1 "connection reset by peer" else .accepted
  onFlush _ _ := .flushed

/-- The last byte of a record of six equal bytes is lost, and the first has been taken twice: so the
stream is complete after all. -/
example :
    let s := (onSocket (.ofBehaviour .repeating) 5).after
      [.write (.fieldStart "f" .int 0), .write (.term (.int 1) 2 [2, 4] [])]
    s.isPoisoned = true ∧ s.socket.socket.sent = [1, 1, 1, 102, 0, 2] ∧
      s.socket.buffer = [2, 2, 2, 2, 2] ∧
      s.closeAfterFailure.2.socket.socket.sent = [1, 1, 1, 102, 0, 2, 2, 2, 2, 2, 2, 3, 4] ∧
      (decodeStream [1, 1, 1, 102, 0, 2, 2, 2, 2, 2, 2, 3, 4]).isOk = true := by
  decide +kernel

end TermStats
