import TermStats.Proofs.Output.CutOff
import TermStats.Proofs.Wire.CallEvents

/-!
Sequences of calls on a stream. A writing call is refused, or its record goes to the socket, with
what comes of that; a stream that is poisoned or ended refuses every writing call and leaves the
socket alone.
-/

namespace TermStats

open Wire (Encoder EncoderCall)

/-- A call on a stream: one that writes a record, a flush, or the end after a failure. -/
inductive StreamCall where
  | write (c : EncoderCall)
  | flush
  | close
  deriving Repr, DecidableEq

namespace StreamCall

def written : StreamCall → List EncoderCall
  | write c => [c]
  | flush | close => []

def OfKind (kind : Option TermKind) : StreamCall → Prop
  | write c => c.OfKind kind
  | flush | close => True

instance (kind : Option TermKind) : (c : StreamCall) → Decidable (c.OfKind kind)
  | write (.term id ..) => inferInstanceAs (Decidable (∀ k ∈ kind, id.kind = k))
  | write (.fieldStart ..) | write .fieldEnd | write .streamEnd | flush | close =>
      inferInstanceAs (Decidable True)

def kindAfter (kind : Option TermKind) : StreamCall → Option TermKind
  | write c => c.kindAfter kind
  | flush => kind
  | close => none

end StreamCall

/-- The state in which a stream takes the call. -/
def Wire.EncoderCall.expected : EncoderCall → StreamState
  | .fieldStart .. | .streamEnd => .idle
  | .term .. | .fieldEnd => .inField

namespace OutputStream

/-- A stream on a socket behind a buffer of its own, as it is opened when there is such a buffer. -/
def onSocket (socket : Socket) (capacity : Nat) : OutputStream :=
  ofSocket (.ofSocket socket capacity)

/-- Makes a writing call. -/
def write (s : OutputStream) : EncoderCall → Attempt OutputStream
  | .fieldStart name kind numStats => s.fieldStart name kind numStats
  | .term id docFreq groups stats => s.term id docFreq groups stats
  | .fieldEnd => s.fieldEnd
  | .streamEnd => s.streamEnd

def call (s : OutputStream) : StreamCall → Attempt OutputStream
  | .write c => s.write c
  | .flush => s.flush
  | .close => s.closeAfterFailure

/-- The stream after some calls. -/
def after (s : OutputStream) (calls : List StreamCall) : OutputStream :=
  calls.foldl (fun s c => (s.call c).2) s

/-- How each of some calls ends. -/
def results (s : OutputStream) : List StreamCall → List (Except Fault Unit)
  | [] => []
  | c :: rest => (s.call c).1 :: (s.call c).2.results rest

/-- The writing calls that succeed. -/
def accepted (s : OutputStream) : List StreamCall → List EncoderCall
  | [] => []
  | c :: rest => (if (s.call c).1.isOk then c.written else []) ++ (s.call c).2.accepted rest

/-- Each term that is passed while a field is open is of its kind. -/
def KeepsKinds (s : OutputStream) (kind : Option TermKind) : List StreamCall → Prop
  | [] => True
  | c :: rest =>
      c.OfKind kind ∧
        (s.call c).2.KeepsKinds (if (s.call c).1.isOk then c.kindAfter kind else kind) rest

instance : (s : OutputStream) → (kind : Option TermKind) → (calls : List StreamCall) →
    Decidable (s.KeepsKinds kind calls) :=
  decideKinds
where
  decideKinds : (s : OutputStream) → (kind : Option TermKind) → (calls : List StreamCall) →
      Decidable (s.KeepsKinds kind calls)
    | _, _, [] => inferInstanceAs (Decidable True)
    | s, kind, c :: rest =>
        have := decideKinds (s.call c).2 (if (s.call c).1.isOk then c.kindAfter kind else kind) rest
        inferInstanceAs (Decidable (_ ∧ _))

/-- The marks of a stream after the record of a call. -/
def advance (s : OutputStream) : EncoderCall → OutputStream
  | .fieldStart .. => { s with state := .inField, fieldOpen := true }
  | .term .. => s
  | .fieldEnd => { s with state := .idle, fieldOpen := false }
  | .streamEnd => { s with state := .ended, endWritten := true }

/-- No record is written any more. -/
def Shut (s : OutputStream) : Prop :=
  s.state = .ended ∨ s.state = .poisoned

variable {s s' : OutputStream} {c : EncoderCall} {f : Fault}

theorem after_append (s : OutputStream) (calls more : List StreamCall) :
    s.after (calls ++ more) = (s.after calls).after more :=
  List.foldl_append

theorem results_append (s : OutputStream) (calls more : List StreamCall) :
    s.results (calls ++ more) = s.results calls ++ (s.after calls).results more := by
  induction calls generalizing s with
  | nil => rfl
  | cons c rest ih => exact congrArg ((s.call c).1 :: ·) (ih _)

/-- What a writing call does: it is refused; or its record goes to the socket, and the call succeeds
or fails as the socket does. An error of the socket poisons the stream, a panic does not. -/
inductive Writes (s : OutputStream) (c : EncoderCall) : Attempt OutputStream → Prop where
  | refused (e : Error) : Writes s c (.error (.error e), { s with state := .poisoned })
  | emitted {record : Bytes} {encoder : Encoder} {b : BufferedSocket}
      (expected : s.state = c.expected) (encoded : s.encoder.call c = (.ok record, encoder))
      (sent : s.socket.write record = (.ok (), b)) :
      Writes s c (.ok (), advance { s with encoder := encoder, socket := b } c)
  | failed {record : Bytes} {encoder : Encoder} {b : BufferedSocket} {state : StreamState}
      (f : Fault) (expected : s.state = c.expected)
      (encoded : s.encoder.call c = (.ok record, encoder))
      (failure : s.socket.write record = (.error f, b))
      (poisons : (∀ p, f ≠ .panic p) → state = .poisoned) :
      Writes s c (.error f, { s with encoder := encoder, socket := b, state := state })

theorem writes_emit {record : Bytes} {encoder : Encoder} (expected : s.state = c.expected)
    (encoded : s.encoder.call c = (.ok record, encoder)) :
    s.Writes c (({ s with encoder := encoder }.emit record).andThen fun s =>
      (.ok (), s.advance c)) := by
  simp only [emit]
  cases hw : s.socket.write record with
  | mk x b =>
      cases x with
      | ok _ => exact .emitted expected encoded hw
      | error f =>
          cases f with
          | error e => exact .failed (.error e) expected encoded hw fun _ => rfl
          | panic p =>
              exact .failed (.panic p) expected encoded hw fun other => absurd rfl (other p)

theorem writes_inState {operation : String} {write : Attempt OutputStream}
    (h : s.state = c.expected → s.Writes c write) :
    s.Writes c (s.inState c.expected operation write) := by
  rw [inState]
  split
  · rename_i expected
    exact h expected
  · exact .refused _

theorem write_cases (s : OutputStream) (c : EncoderCall) : s.Writes c (s.write c) := by
  cases c with
  | fieldStart name kind numStats =>
      exact writes_inState fun expected => writes_emit expected rfl
  | term id docFreq groups stats =>
      refine writes_inState fun expected => ?_
      split
      · exact .refused _
      · rename_i record encoder he
        have encoded : s.encoder.call (.term id docFreq groups stats) = (.ok record, encoder) := by
          simp only [Encoder.call, he]
        have emits : s.Writes (.term id docFreq groups stats)
            (({ s with encoder := encoder }.emit record).andThen fun s => (.ok (), s)) :=
          writes_emit expected encoded
        rwa [Attempt.andThen_self] at emits
  | fieldEnd => exact writes_inState fun expected => writes_emit expected rfl
  | streamEnd => exact writes_inState fun expected => writes_emit expected rfl

/-- What closing does: the missing markers cannot be written; or they count as written, and the
flush decides. -/
inductive Closes (s : OutputStream) : Attempt OutputStream → Prop where
  | unwritten {b : BufferedSocket} (f : Fault)
      (failure : s.socket.write s.missingMarkers = (.error f, b)) :
      Closes s (.error f, { s with socket := b, state := .poisoned })
  | unflushed {b b' : BufferedSocket} (f : Fault)
      (written : s.socket.write s.missingMarkers = (.ok (), b))
      (failure : b.flush = (.error f, b')) :
      Closes s (.error f,
        { s with socket := b', state := .poisoned, fieldOpen := false, endWritten := true })
  | ended {b b' : BufferedSocket} (written : s.socket.write s.missingMarkers = (.ok (), b))
      (flushed : b.flush = (.ok (), b')) :
      Closes s (.ok (),
        { s with socket := b', state := .ended, fieldOpen := false, endWritten := true })

theorem close_cases (s : OutputStream) : s.Closes s.closeAfterFailure := by
  have same : missingMarkers { s with state := .poisoned } = s.missingMarkers := rfl
  simp only [closeAfterFailure, same]
  cases hw : s.socket.write s.missingMarkers with
  | mk x b =>
      cases x with
      | error f => exact .unwritten f hw
      | ok _ =>
          dsimp only
          cases hf : b.flush with
          | mk x b' =>
              cases x with
              | error f => exact .unflushed f hw hf
              | ok _ => exact .ended hw hf

theorem later_write (s : OutputStream) (c : EncoderCall) :
    s.socket.socket.Later (s.write c).2.socket.socket := by
  have outcome := s.write_cases c
  generalize s.write c = r at outcome ⊢
  cases outcome with
  | refused => exact .refl
  | @emitted record _ _ _ _ sent =>
      have written := BufferedSocket.later_write s.socket record
      rw [sent] at written
      cases c <;> exact written
  | @failed record _ _ _ _ _ _ failure =>
      have written := BufferedSocket.later_write s.socket record
      rwa [failure] at written

theorem later_call (s : OutputStream) (c : StreamCall) :
    s.socket.socket.Later (s.call c).2.socket.socket := by
  cases c with
  | write c => exact s.later_write c
  | flush =>
      rw [call, flush, socket_settle]
      exact BufferedSocket.later_flush _
  | close => exact s.later_closeAfterFailure

theorem later_after (s : OutputStream) (calls : List StreamCall) :
    s.socket.socket.Later (s.after calls).socket.socket := by
  induction calls generalizing s with
  | nil => exact .refl
  | cons c rest ih => exact (s.later_call c).trans (ih _)

section Shut

theorem Shut.write (shut : s.Shut) (c : EncoderCall) :
    ∃ e, s.write c = (.error (.error e), { s with state := .poisoned }) := by
  have other : s.state ≠ c.expected := by
    rcases shut with h | h <;> rw [h] <;> cases c <;> exact nofun
  have outcome := s.write_cases c
  generalize s.write c = r at outcome ⊢
  cases outcome with
  | refused e => exact ⟨e, rfl⟩
  | emitted expected => exact absurd expected other
  | failed _ expected => exact absurd expected other

theorem shut_settle (shut : s.Shut) (r : Attempt BufferedSocket) : (s.settle r).2.Shut := by
  obtain ⟨x, b⟩ := r
  match x with
  | .ok _ => exact shut
  | .error (.error e) => exact .inr rfl
  | .error (.panic p) => exact shut

theorem shut_closeAfterFailure (s : OutputStream) : s.closeAfterFailure.2.Shut := by
  have outcome := s.close_cases
  generalize s.closeAfterFailure = r at outcome ⊢
  cases outcome with
  | unwritten | unflushed => exact .inr rfl
  | ended => exact .inl rfl

theorem Shut.call (shut : s.Shut) (c : StreamCall) : (s.call c).2.Shut := by
  cases c with
  | write c =>
      obtain ⟨e, h⟩ := shut.write c
      rw [OutputStream.call, h]
      exact .inr rfl
  | flush => exact shut_settle shut _
  | close => exact s.shut_closeAfterFailure

theorem Shut.after (shut : s.Shut) (calls : List StreamCall) : (s.after calls).Shut := by
  induction calls generalizing s with
  | nil => exact shut
  | cons c rest ih => exact ih (shut.call c)

theorem Shut.accepted (shut : s.Shut) (calls : List StreamCall) : s.accepted calls = [] := by
  induction calls generalizing s with
  | nil => rfl
  | cons c rest ih =>
      rw [OutputStream.accepted, ih (shut.call c), List.append_nil]
      cases c with
      | write c =>
          obtain ⟨e, h⟩ := shut.write c
          rw [OutputStream.call, h]
          rfl
      | flush | close => exact ite_self _

end Shut

end OutputStream

section NeverFails

variable {s : OutputStream} {b : BufferedSocket}

theorem BufferedSocket.flush_neverFails (never : b.socket.behaviour.NeverFails) :
    b.flush.1 = .ok () := by
  simp only [flush]
  split
  · exact Socket.flush_neverFails never
  · have written := Socket.write_neverFails never b.buffer
    split
    · rename_i hw
      rw [hw] at written
      cases written
    · rename_i socket hw
      refine Socket.flush_neverFails ?_
      have same := Socket.behaviour_write b.socket b.buffer
      rw [hw] at same
      exact same ▸ never

theorem BufferedSocket.write_neverFails (never : b.socket.behaviour.NeverFails) (data : Bytes) :
    (b.write data).1 = .ok () := by
  fun_induction write b data with
  | case1 | case2 => rfl
  | case3 b data _ _ _ _ hf =>
      have flushed :=
        flush_neverFails (b := { b with buffer := b.buffer ++ data.take b.room }) never
      rw [hf] at flushed
      cases flushed
  | case4 b data _ _ _ _ hf ih =>
      have later := later_flush { b with buffer := b.buffer ++ data.take b.room }
      rw [hf] at later
      exact ih (later.behaviour ▸ never)

/-- On a socket that never fails, only what is out of order or ill-formed fails. -/
theorem OutputStream.refused_of_neverFails (never : s.socket.socket.behaviour.NeverFails)
    {c : EncoderCall} (h : (s.write c).1 ≠ .ok ()) :
    ∃ e, s.write c = (.error (.error e), { s with state := .poisoned }) := by
  have outcome := s.write_cases c
  generalize s.write c = r at outcome h ⊢
  cases outcome with
  | refused e => exact ⟨e, rfl⟩
  | emitted => exact absurd rfl h
  | @failed record _ _ _ f _ _ failure =>
      have written := BufferedSocket.write_neverFails never record
      rw [failure] at written
      cases written

theorem OutputStream.flush_neverFails (never : s.socket.socket.behaviour.NeverFails) :
    s.flush.1 = .ok () := by
  rw [OutputStream.flush, settle_fst]
  exact BufferedSocket.flush_neverFails never

theorem OutputStream.close_neverFails (never : s.socket.socket.behaviour.NeverFails) :
    s.closeAfterFailure.1 = .ok () := by
  have outcome := s.close_cases
  have written := BufferedSocket.write_neverFails never s.missingMarkers
  generalize s.closeAfterFailure = r at outcome ⊢
  cases outcome with
  | unwritten f failure =>
      rw [failure] at written
      cases written
  | unflushed f hw failure =>
      have later := BufferedSocket.later_write s.socket s.missingMarkers
      rw [hw] at later
      have flushed := BufferedSocket.flush_neverFails (later.behaviour ▸ never)
      rw [failure] at flushed
      cases flushed
  | ended => rfl

theorem OutputStream.neverFails_after (never : s.socket.socket.behaviour.NeverFails)
    (calls : List StreamCall) : (s.after calls).socket.socket.behaviour.NeverFails :=
  (s.later_after calls).behaviour ▸ never

end NeverFails

/-- Fails by errors only. -/
def SocketBehaviour.NeverPanics (b : SocketBehaviour) : Prop :=
  (∀ calls sent data text, b.onWrite calls sent data ≠ .panicked text) ∧
    ∀ calls sent text, b.onFlush calls sent ≠ .panicked text

section NeverPanics

variable {f : Fault} {p : Panic}

theorem Socket.write_neverPanics {s s' : Socket} (never : s.behaviour.NeverPanics) {data : Bytes}
    (h : s.write data = (.error f, s')) : f ≠ .panic p := by
  simp only [write] at h
  split at h
  · cases h
  · cases h
    intro panicked
    cases panicked
  · rename_i hw
    exact absurd hw (never.1 _ _ _ _)

theorem Socket.flush_neverPanics {s s' : Socket} (never : s.behaviour.NeverPanics)
    (h : s.flush = (.error f, s')) : f ≠ .panic p := by
  simp only [flush] at h
  split at h
  · cases h
  · cases h
    intro panicked
    cases panicked
  · rename_i hf
    exact absurd hf (never.2 _ _ _)

variable {b b' : BufferedSocket}

theorem BufferedSocket.flush_neverPanics (never : b.socket.behaviour.NeverPanics)
    (h : b.flush = (.error f, b')) : f ≠ .panic p := by
  simp only [flush] at h
  split at h
  · exact Socket.flush_neverPanics never (Prod.ext (Prod.mk.inj h).1 rfl)
  · split at h
    · rename_i hw
      cases h
      exact Socket.write_neverPanics never hw
    · rename_i socket hw
      refine Socket.flush_neverPanics (s := socket) ?_ (Prod.ext (Prod.mk.inj h).1 rfl)
      have same := Socket.behaviour_write b.socket b.buffer
      rw [hw] at same
      exact same ▸ never

theorem BufferedSocket.write_neverPanics (never : b.socket.behaviour.NeverPanics) {data : Bytes}
    (h : b.write data = (.error f, b')) : f ≠ .panic p := by
  fun_induction write b data with
  | case1 | case2 => cases h
  | case3 b data _ _ _ _ hf =>
      cases h
      exact flush_neverPanics (b := { b with buffer := b.buffer ++ data.take b.room }) never hf
  | case4 b data _ _ _ _ hf ih =>
      have later := later_flush { b with buffer := b.buffer ++ data.take b.room }
      rw [hf] at later
      exact ih (later.behaviour ▸ never) h

/-- On a socket that never panics, a writing call that fails shuts the stream and leaves its marks
alone. It was refused, or the socket failed on its record. -/
theorem OutputStream.write_failed {s : OutputStream}
    (never : s.socket.socket.behaviour.NeverPanics) {c : EncoderCall} (h : (s.write c).1 ≠ .ok ()) :
    (s.write c).2.Shut ∧ (s.write c).2.fieldOpen = s.fieldOpen ∧
      (s.write c).2.endWritten = s.endWritten ∧
      ((s.write c).2.socket = s.socket ∨
        s.state = c.expected ∧ ∃ record encoder f, s.encoder.call c = (.ok record, encoder) ∧
          s.socket.write record = (.error f, (s.write c).2.socket)) := by
  have outcome := s.write_cases c
  generalize s.write c = r at outcome h ⊢
  cases outcome with
  | refused => exact ⟨.inr rfl, rfl, rfl, .inl rfl⟩
  | emitted => exact absurd rfl h
  | failed f expected encoded failure poisons =>
      have poisoned := poisons fun p => BufferedSocket.write_neverPanics never failure
      exact ⟨.inr poisoned, rfl, rfl, .inr ⟨expected, _, _, f, encoded, failure⟩⟩

theorem OutputStream.neverPanics_call {s : OutputStream}
    (never : s.socket.socket.behaviour.NeverPanics) (c : StreamCall) :
    (s.call c).2.socket.socket.behaviour.NeverPanics :=
  (s.later_call c).behaviour ▸ never

end NeverPanics

end TermStats
