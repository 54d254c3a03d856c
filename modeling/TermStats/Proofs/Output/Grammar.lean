import TermStats.Proofs.Output.Carried

/-!
Streams on sockets that never fail. A call out of order or with ill-formed stats is refused, and so
is every writing call after it; closing then completes what was accepted before. The order of
records is thus enforced, but not that a term is of the kind of its field: streams that keep to
this, and only those, are decoded to the events of their calls.
-/

namespace TermStats

open Wire (EncoderCall Event Leads OfKinds Scope decodeStream)

namespace OutputStream

variable {s : OutputStream} {base : Bytes} {events : List Event} {scope : Scope}

/-- On a socket that never fails, a flush and a writing call that is refused add no record. -/
theorem Carries.call_of_not_ok (never : s.socket.socket.behaviour.NeverFails)
    (carries : s.Carries base events scope) {c : StreamCall} (running : c ≠ .close)
    (unwritten : ∀ w, c = .write w → (s.write w).1 ≠ .ok ()) :
    (s.call c).2.Carries base events scope ∧ (s.call c).2.encoder = s.encoder ∧
      ∀ rest, s.accepted (c :: rest) = (s.call c).2.accepted rest := by
  cases c with
  | close => exact absurd rfl running
  | flush =>
      obtain ⟨carries', encoder, -⟩ := carries.flush_ok (flush_neverFails never)
      refine ⟨carries', encoder, fun rest => ?_⟩
      rw [accepted, StreamCall.written, ite_self, List.nil_append]
  | write w =>
      obtain ⟨e, refused⟩ := s.refused_of_neverFails never (unwritten w rfl)
      have shut : Shut { s with state := .poisoned } := .inr rfl
      simp only [accepted, call, refused]
      exact ⟨carries.shut shut rfl rfl rfl, trivial, fun _ => rfl⟩

/-- On a socket that never fails, a stream carries the events of the calls that succeed. -/
theorem Carries.after (never : s.socket.socket.behaviour.NeverFails)
    (carries : s.Carries base events scope) {calls : List StreamCall} (running : .close ∉ calls)
    (fits : ∀ c, .write c ∈ calls → c.Fits) :
    ∃ last, (s.after calls).Carries base
        (events ++ EncoderCall.events s.encoder.numStats (s.accepted calls)) last ∧
      (OfKinds scope.kind? (EncoderCall.events s.encoder.numStats (s.accepted calls)) →
        Leads scope (EncoderCall.events s.encoder.numStats (s.accepted calls)) last) := by
  induction calls generalizing s events scope with
  | nil =>
      refine ⟨scope, ?_, fun _ => .nil scope⟩
      rw [accepted, EncoderCall.events, List.append_nil]
      exact carries
  | cons c rest ih =>
      obtain ⟨running, running'⟩ := not_or.mp (List.mem_cons.not.mp running)
      have never' : (s.call c).2.socket.socket.behaviour.NeverFails := s.neverFails_after never [c]
      have fits' (w : EncoderCall) (h : .write w ∈ rest) : w.Fits :=
        fits w (List.mem_cons_of_mem c h)
      by_cases written : ∃ w, c = .write w ∧ (s.write w).1 = .ok ()
      · obtain ⟨w, rfl, ok⟩ := written
        obtain ⟨going, follows, ⟨record, encoded⟩, carries'⟩ := carries.write_ok (Prod.ext ok rfl)
        obtain ⟨-, same, numStats⟩ := EncoderCall.event_of_call encoded
        have first : s.accepted (.write w :: rest) = w :: (s.write w).2.accepted rest := by
          rw [accepted, call, ok]
          rfl
        obtain ⟨last, carries'', leads⟩ := ih never' carries' running' fits'
        rw [first, EncoderCall.events, ← numStats, List.append_cons]
        refine ⟨last, carries'', fun ofKinds => ?_⟩
        obtain ⟨ofKind, ofKinds⟩ := ofKinds
        rw [same] at ofKind ofKinds
        rw [← EncoderCall.kind_next follows] at ofKinds
        have allowed := EncoderCall.allowed_of_call encoded follows (carries.stats going)
          (fits w List.mem_cons_self) ofKind
        exact .cons allowed (leads ofKinds)
      · have unwritten (w : EncoderCall) (hw : c = .write w) : (s.write w).1 ≠ .ok () :=
          fun ok => written ⟨w, hw, ok⟩
        obtain ⟨carries', encoder, accepted⟩ :=
          carries.call_of_not_ok never (Ne.symm running) unwritten
        have tail := ih never' carries' running' fits'
        rw [encoder] at tail
        rw [accepted rest]
        exact tail

/-- Once a stream has been closed, no call makes a difference to what has been accepted. -/
theorem Carries.closed_after (never : s.socket.socket.behaviour.NeverFails) (shut : s.Shut)
    (carries : s.Carries base events .ended) (empty : s.socket.buffer = [])
    (later : List StreamCall) :
    (s.after later).Carries base events .ended ∧ (s.after later).socket.buffer = [] := by
  induction later generalizing s with
  | nil => exact ⟨carries, empty⟩
  | cons c rest ih =>
      have never' : (s.call c).2.socket.socket.behaviour.NeverFails := s.neverFails_after never [c]
      suffices step : (s.call c).2.Carries base events .ended ∧ (s.call c).2.socket.buffer = [] from
        ih never' (shut.call c) step.1 step.2
      cases c with
      | write w =>
          obtain ⟨e, refused⟩ := shut.write w
          simp only [call, refused]
          exact ⟨carries.shut (.inr rfl) rfl rfl rfl, empty⟩
      | flush =>
          obtain ⟨carries', -, empty'⟩ := carries.flush_ok (flush_neverFails never)
          exact ⟨carries', empty'⟩
      | close =>
          have again := carries.close_ok (Prod.ext (close_neverFails never) rfl)
          rw [Scope.closing, List.append_nil] at again
          exact again

theorem KeepsKinds.ofKinds {kind : Option TermKind} {calls : List StreamCall}
    (h : s.KeepsKinds kind calls) (running : .close ∉ calls) (numStats : Nat) :
    OfKinds kind (EncoderCall.events numStats (s.accepted calls)) := by
  induction calls generalizing s kind numStats with
  | nil => trivial
  | cons c rest ih =>
      obtain ⟨running, running'⟩ := not_or.mp (List.mem_cons.not.mp running)
      obtain ⟨ofKind, h⟩ := h
      cases c with
      | close => exact absurd rfl running
      | flush =>
          rw [StreamCall.kindAfter, ite_self] at h
          rw [accepted, StreamCall.written, ite_self]
          exact ih h running' numStats
      | write w =>
          rw [accepted]
          by_cases ok : (s.call (.write w)).1.isOk = true
          · rw [if_pos ok] at h ⊢
            have tail := ih h running' (w.statsAfter numStats)
            cases w <;> exact ⟨ofKind, tail⟩
          · rw [if_neg ok] at h ⊢
            exact ih h running' numStats

/-- A writing call that fails is the last that wrote. -/
theorem refused_after_failure (never : s.socket.socket.behaviour.NeverFails)
    {before : List StreamCall} {c : EncoderCall} (between : List StreamCall) (later : EncoderCall)
    (failed : ((s.after before).write c).1 ≠ .ok ()) :
    ∃ e, (s.after (before ++ .write c :: between)).write later =
      (.error (.error e), { s.after (before ++ .write c :: between) with state := .poisoned }) := by
  obtain ⟨e, refused⟩ := refused_of_neverFails (s.neverFails_after never before) failed
  have shut : ((s.after before).call (.write c)).2.Shut := by
    rw [call, refused]
    exact .inr rfl
  rw [after_append]
  exact (shut.after between).write later

/-- When no call fails, the accepted calls are those that write. -/
theorem accepted_of_results {calls : List StreamCall}
    (succeed : ∀ x ∈ s.results calls, x = .ok ()) :
    s.accepted calls = calls.flatMap (·.written) := by
  induction calls generalizing s with
  | nil => rfl
  | cons c rest ih =>
      obtain ⟨ok, succeed⟩ := List.forall_mem_cons.mp succeed
      rw [accepted, ok, ih succeed, List.flatMap_cons]
      rfl

/-- A stream that takes a writing call has not been closed before. -/
theorem running_of_write_ok {calls : List StreamCall} {c : EncoderCall}
    (ok : ((s.after calls).write c).1 = .ok ()) : .close ∉ calls := by
  intro closed
  obtain ⟨before, later, rfl⟩ := List.append_of_mem closed
  have shut : (s.after (before ++ .close :: later)).Shut := by
    rw [after_append]
    exact ((s.after before).shut_closeAfterFailure).after later
  obtain ⟨e, refused⟩ := shut.write c
  rw [refused] at ok
  cases ok

end OutputStream

open OutputStream (onSocket)

/-- On a socket that never fails, all writing calls after one that failed fail too, and leave the
socket and its buffer alone. When the stream is closed then, as often as one likes, every closing
succeeds, and what has been accepted is decoded to the events of the calls that succeeded and the
markers that were missing. -/
theorem closed_stream_complete {socket : Socket} (never : socket.behaviour.NeverFails)
    (capacity : Nat) :
    let s := onSocket socket capacity
    (∀ before c between later, ((s.after before).write c).1 ≠ .ok () →
      let s' := s.after (before ++ .write c :: between)
      (∃ e, (s'.write later).1 = .error (.error e)) ∧ (s'.write later).2.socket = s'.socket) ∧
    ∀ calls, .close ∉ calls → (∀ c, .write c ∈ calls → c.Fits) → s.KeepsKinds none calls →
      (s.after calls).closeAfterFailure.1 = .ok () ∧
      ∃ bytes scope,
        Leads .outside (EncoderCall.events 0 (s.accepted calls)) scope ∧
        decodeStream bytes =
          .ok (EncoderCall.events 0 (s.accepted calls) ++ scope.closing) ∧
        ∀ later, (s.after (calls ++ .close :: later)).closeAfterFailure.1 = .ok () ∧
          (s.after (calls ++ .close :: later)).socket.socket.sent = socket.sent ++ bytes := by
  intro s
  have never : s.socket.socket.behaviour.NeverFails := never
  refine ⟨?_, ?_⟩
  · intro before c between later failed s'
    obtain ⟨e, refused⟩ := s.refused_after_failure never between later failed
    exact ⟨⟨e, congrArg Prod.fst refused⟩, congrArg (·.2.socket) refused⟩
  · intro calls running fits kinds
    obtain ⟨scope, carries, leads⟩ :=
      (OutputStream.carries_onSocket socket capacity).after never running fits
    have leads := leads (kinds.ofKinds running 0)
    have closes := OutputStream.close_neverFails (s.neverFails_after never calls)
    obtain ⟨ended, empty⟩ := carries.close_ok (Prod.ext closes rfl)
    obtain ⟨bytes, e, hevents⟩ := Wire.events_ok leads.closing (Wire.tracks_start [])
    have complete := Wire.decodeStream_encode leads.closing hevents
    refine ⟨closes, bytes, scope, leads, complete, fun later => ⟨?_, ?_⟩⟩
    · exact OutputStream.close_neverFails (s.neverFails_after never _)
    · have shut := (s.after calls).shut_closeAfterFailure
      have never' : (s.after calls).closeAfterFailure.2.socket.socket.behaviour.NeverFails :=
        (s.after calls).neverFails_after (s.neverFails_after never calls) [.close]
      obtain ⟨ended', empty'⟩ := ended.closed_after never' shut empty later
      rw [OutputStream.after_append]
      exact ended'.sent empty' hevents

/-- A field with one term, and a term whose groups do not ascend. -/
def misusedCalls : List StreamCall :=
  [.write (.fieldStart "f" .string 1),
    .write (.term (.bytes [97]) 2 [1, 4] [10, -1]),
    .write (.term (.bytes [98]) 1 [2, 2] [1, 1]),
    .flush]

theorem closed_stream_complete_misused :
    let s := onSocket (.ofBehaviour .reliable) 4
    (∃ e, ((s.after misusedCalls).write .fieldEnd).1 = .error (.error e)) ∧
    decodeStream
        (s.after (misusedCalls ++ [.close, .write .streamEnd, .close])).socket.socket.sent =
      .ok [.fieldStart "f" .string 1, .term ⟨.bytes [97], 2, [⟨1, [10]⟩, ⟨4, [-1]⟩]⟩, .fieldEnd,
        .streamEnd] := by
  intro s
  have never : (Socket.ofBehaviour .reliable).behaviour.NeverFails :=
    SocketBehaviour.reliable_neverFails
  obtain ⟨refuses, completes⟩ := closed_stream_complete never 4
  have accepted : s.accepted misusedCalls =
      [.fieldStart "f" .string 1, .term (.bytes [97]) 2 [1, 4] [10, -1]] := by
    decide +kernel
  have failed : ((s.after (misusedCalls.take 2)).write
      (.term (.bytes [98]) 1 [2, 2] [1, 1])).1.isOk = false := by
    decide +kernel
  have fits : ∀ c, .write c ∈ misusedCalls → c.Fits := by
    intro c hc
    simp only [misusedCalls, List.mem_cons, StreamCall.write.injEq, reduceCtorEq, List.not_mem_nil,
      or_false] at hc
    rcases hc with rfl | rfl | rfl
    · exact ⟨by decide, by decide⟩
    · exact (by decide : ([97] : Bytes).length < 2 ^ 64)
    · exact (by decide : ([98] : Bytes).length < 2 ^ 64)
  obtain ⟨_, bytes, scope, leads, decoded, later⟩ :=
    completes misusedCalls (by decide) fits (by decide +kernel)
  constructor
  · have refused := refuses (misusedCalls.take 2) _ [.flush] .fieldEnd fun ok => by
      rw [ok] at failed
      cases failed
    exact refused.1
  · have sent := (later [.write .streamEnd, .close]).2
    rw [accepted] at leads decoded
    rcases leads with _ | ⟨⟨⟩, _ | ⟨⟨⟩, ⟨⟩⟩⟩
    rw [sent]
    exact decoded

/-- On a socket that never fails, let no call fail up to the end of the stream and a flush. Then
what has been accepted is decoded to the events of the calls if every term is of the kind of its
field, and else it is not: the kinds are all that a stream does not check. -/
theorem decoded_iff_ofKinds {socket : Socket} (never : socket.behaviour.NeverFails)
    (capacity : Nat) (calls : List StreamCall) (fits : ∀ c, .write c ∈ calls → c.Fits)
    (succeed : ∀ x ∈ (onSocket socket capacity).results (calls ++ [.write .streamEnd, .flush]),
      x = .ok ()) :
    ∃ bytes,
      ((onSocket socket capacity).after (calls ++ [.write .streamEnd, .flush])).socket.socket.sent =
        socket.sent ++ bytes ∧
      (decodeStream bytes =
          .ok (EncoderCall.events 0 (calls.flatMap (·.written)) ++ [.streamEnd]) ↔
        OfKinds none (EncoderCall.events 0 (calls.flatMap (·.written)) ++ [.streamEnd])) := by
  rw [OutputStream.results_append] at succeed
  obtain ⟨succeed, ends⟩ := List.forall_mem_append.mp succeed
  obtain ⟨ended, ends⟩ := List.forall_mem_cons.mp ends
  have flushed := ends _ List.mem_cons_self
  have accepted := OutputStream.accepted_of_results succeed
  obtain ⟨scope, carries, leads⟩ := (OutputStream.carries_onSocket socket capacity).after never
    (OutputStream.running_of_write_ok ended) fits
  rw [accepted] at carries leads
  obtain ⟨-, follows, -, carries⟩ := carries.write_ok (Prod.ext ended rfl)
  obtain ⟨carries, -, empty⟩ := carries.flush_ok flushed
  obtain ⟨bytes, e, hevents, -⟩ := carries.records
  have sent := carries.sent empty hevents
  rw [OutputStream.after_append]
  refine ⟨bytes, sent, fun decoded => Wire.ofKinds_of_decodeStream decoded, fun ofKinds => ?_⟩
  have leads := leads ofKinds.of_append
  cases follows with
  | streamEnd => exact Wire.decodeStream_encode (leads.append (.cons .streamEnd (.nil _))) hevents

/-- An int field with one term, without groups. -/
def intFieldCalls (id : TermId) : List StreamCall :=
  [.write (.fieldStart "f" .int 0), .write (.term id 1 [] []), .write .fieldEnd]

/-- A term with an int as its id is read again; one with a string is written too, and is not. -/
theorem decoded_iff_ofKinds_int_field :
    let s := onSocket (.ofBehaviour .reliable) 64
    let ending : List StreamCall := [.write .streamEnd, .flush]
    let events (id : TermId) : List Event :=
      [.fieldStart "f" .int 0, .term ⟨id, 1, []⟩, .fieldEnd, .streamEnd]
    decodeStream (s.after (intFieldCalls (.int 7) ++ ending)).socket.socket.sent =
        .ok (events (.int 7)) ∧
      (∀ x ∈ s.results (intFieldCalls (.bytes [97]) ++ ending), x = .ok ()) ∧
      decodeStream (s.after (intFieldCalls (.bytes [97]) ++ ending)).socket.socket.sent ≠
        .ok (events (.bytes [97])) := by
  intro s ending events
  have never : (Socket.ofBehaviour .reliable).behaviour.NeverFails :=
    SocketBehaviour.reliable_neverFails
  have fits (id : TermId) (idFits : Wire.IdFits id) :
      ∀ c, .write c ∈ intFieldCalls id → c.Fits := by
    intro c hc
    simp only [intFieldCalls, List.mem_cons, StreamCall.write.injEq, List.not_mem_nil,
      or_false] at hc
    rcases hc with rfl | rfl | rfl
    · exact ⟨by decide, by decide⟩
    · exact idFits
    · trivial
  have succeed (id : TermId) (ok : ∀ x ∈ s.results (intFieldCalls id ++ ending), x.isOk = true) :
      ∀ x ∈ s.results (intFieldCalls id ++ ending), x = .ok () :=
    fun x hx => Result.ok_of_isOk (ok x hx)
  have succeed_string := succeed (.bytes [97]) (by decide +kernel)
  refine ⟨?_, succeed_string, ?_⟩
  · obtain ⟨bytes, sent, decoded⟩ := decoded_iff_ofKinds never 64 (intFieldCalls (.int 7))
      (fits (.int 7) trivial) (succeed (.int 7) (by decide +kernel))
    rw [sent]
    refine decoded.mpr ⟨trivial, ?_, trivial, trivial, trivial⟩
    intro kind h
    cases h
    rfl
  · obtain ⟨bytes, sent, decoded⟩ := decoded_iff_ofKinds never 64 (intFieldCalls (.bytes [97]))
      (fits (.bytes [97]) (by decide : ([97] : Bytes).length < 2 ^ 64)) succeed_string
    rw [sent]
    intro read
    have ofKind := (decoded.mp read).2.1
    exact nomatch ofKind .int rfl

end TermStats
