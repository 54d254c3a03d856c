import TermStats.Output.Stream
import TermStats.Proofs.Attempt
import TermStats.Proofs.Output.Delivery
import TermStats.Result

/-!
The records that a stream has written, as the events they encode. Each operation that succeeds adds
its record, on whatever socket, and nothing else changes what is delivered.
-/

namespace TermStats

open Wire (Encoder Event TermRecord)

theorem Wire.Encoder.events_concat {e e₁ e₂ : Encoder} {events : List Event} {ev : Event}
    {bytes record : Bytes} (h : e.events events = .ok (bytes, e₁))
    (h' : e₁.event ev = .ok (record, e₂)) :
    e.events (events ++ [ev]) = .ok (bytes ++ record, e₂) := by
  induction events generalizing e bytes with
  | nil =>
      cases h
      simp only [List.nil_append, events, h', bind, Except.bind, pure, Except.pure, List.append_nil]
  | cons first rest ih =>
      simp only [events, Result.bind_eq_ok] at h
      obtain ⟨⟨b, e'⟩, hfirst, ⟨more, e''⟩, hrest, h⟩ := h
      cases h
      simp only [List.cons_append, events, hfirst, ih hrest, bind, Except.bind, pure, Except.pure,
        List.append_assoc]

namespace OutputStream

/-- Behind `base`, the records of `events` have been delivered and no more. -/
def Holds (base : Bytes) (events : List Event) (s : OutputStream) : Prop :=
  ∃ bytes, Encoder.start.events events = .ok (bytes, s.encoder) ∧
    s.socket.delivered = base ++ bytes

structure Idle (s : OutputStream) : Prop where
  state : s.state = .idle
  closed : s.fieldOpen = false
  unended : s.endWritten = false

structure InField (numStats : Nat) (s : OutputStream) : Prop where
  state : s.state = .inField
  opened : s.fieldOpen = true
  unended : s.endWritten = false
  stats : s.encoder.numStats = numStats

theorem holds_ofSocket (socket : Socket) (capacity : Nat) :
    (ofSocket (.ofSocket socket capacity)).Holds socket.sent [] :=
  ⟨[], rfl, rfl⟩

theorem idle_ofSocket (b : BufferedSocket) : (ofSocket b).Idle := ⟨rfl, rfl, rfl⟩

section Emit

variable {s s' : OutputStream} {base record : Bytes} {events : List Event} {ev : Event}
  {encoder : Encoder}

theorem emit_ok (h : s.emit record = (.ok (), s')) :
    s' = { s with socket := s'.socket } ∧
      s'.socket.delivered = s.socket.delivered ++ record := by
  simp only [emit] at h
  cases hw : s.socket.write record with
  | mk x b =>
      rw [hw] at h
      match x with
      | .ok _ =>
          cases h
          exact ⟨rfl, BufferedSocket.write_ok hw⟩
      | .error (.error _) => cases h
      | .error (.panic _) => cases h

theorem holds_emit (ev : Event) (holds : s.Holds base events)
    (he : s.encoder.event ev = .ok (record, encoder))
    (h : { s with encoder := encoder }.emit record = (.ok (), s')) :
    s'.Holds base (events ++ [ev]) ∧ s' = { s with encoder := encoder, socket := s'.socket } := by
  obtain ⟨bytes, hevents, hdelivered⟩ := holds
  obtain ⟨same, delivered⟩ := emit_ok h
  have kept : s'.encoder = encoder := by rw [same]
  refine ⟨⟨bytes ++ record, ?_, ?_⟩, same⟩
  · rw [kept]
    exact Encoder.events_concat hevents he
  · rw [delivered, ← List.append_assoc, ← hdelivered]

end Emit

theorem inState_ok {s s' : OutputStream} {expected : StreamState} {operation : String}
    {write : Attempt OutputStream} (h : s.inState expected operation write = (.ok (), s')) :
    write = (.ok (), s') := by
  simp only [inState] at h
  split at h
  · exact h
  · cases h

section Operations

variable {s s' : OutputStream} {base : Bytes} {events : List Event} {numStats : Nat}

theorem fieldStart_ok {name : String} {kind : TermKind} (holds : s.Holds base events)
    (idle : s.Idle) (h : s.fieldStart name kind numStats = (.ok (), s')) :
    s'.Holds base (events ++ [.fieldStart name kind numStats]) ∧ s'.InField numStats := by
  obtain ⟨s₁, hemit, h⟩ := Attempt.andThen_eq_ok.mp (inState_ok h)
  cases h
  obtain ⟨holds₁, same⟩ := holds_emit (.fieldStart name kind numStats) holds rfl hemit
  rw [same] at holds₁ ⊢
  exact ⟨holds₁, rfl, rfl, idle.unended, rfl⟩

theorem term_ok {r : TermRecord} (holds : s.Holds base events) (inField : s.InField numStats)
    (h : s.term r.term r.docFreq (r.groups.map (·.group)) (r.groups.flatMap (·.stats)) =
      (.ok (), s')) :
    s'.Holds base (events ++ [.term r]) ∧ s'.InField numStats := by
  have h := inState_ok h
  split at h
  · cases h
  · rename_i record encoder he
    obtain ⟨holds₁, same⟩ := holds_emit (.term r) holds he h
    have kept : encoder.numStats = s.encoder.numStats := by
      simp only [Encoder.term] at he
      split at he
      · cases he
      · split at he
        · cases he
        · cases he
          cases r.term <;> rfl
    rw [same] at holds₁ ⊢
    exact ⟨holds₁, inField.state, inField.opened, inField.unended, kept.trans inField.stats⟩

theorem fieldEnd_ok (holds : s.Holds base events) (inField : s.InField numStats)
    (h : s.fieldEnd = (.ok (), s')) : s'.Holds base (events ++ [.fieldEnd]) ∧ s'.Idle := by
  obtain ⟨s₁, hemit, h⟩ := Attempt.andThen_eq_ok.mp (inState_ok h)
  cases h
  obtain ⟨holds₁, same⟩ := holds_emit .fieldEnd holds rfl hemit
  rw [same] at holds₁ ⊢
  exact ⟨holds₁, rfl, rfl, inField.unended⟩

theorem streamEnd_ok (holds : s.Holds base events) (h : s.streamEnd = (.ok (), s')) :
    s'.Holds base (events ++ [.streamEnd]) := by
  obtain ⟨s₁, hemit, h⟩ := Attempt.andThen_eq_ok.mp (inState_ok h)
  cases h
  obtain ⟨holds₁, same⟩ := holds_emit .streamEnd holds rfl hemit
  rw [same] at holds₁ ⊢
  exact holds₁

/-- After a flush all records have been accepted. -/
theorem flush_ok (holds : s.Holds base events) (h : s.flush = (.ok (), s')) :
    ∃ bytes e, Encoder.start.events events = .ok (bytes, e) ∧
      s'.socket.socket.sent = base ++ bytes := by
  obtain ⟨bytes, hevents, hdelivered⟩ := holds
  simp only [flush] at h
  cases hf : s.socket.flush with
  | mk x b =>
      rw [hf] at h
      match x with
      | .ok _ =>
          cases h
          exact ⟨bytes, _, hevents, (BufferedSocket.flush_ok hf).1.trans hdelivered⟩
      | .error (.error _) => cases h
      | .error (.panic _) => cases h

/-- What a stream in its field lacks are both markers. -/
theorem events_missingMarkers {bytes : Bytes}
    (h : Encoder.start.events events = .ok (bytes, s.encoder)) (inField : s.InField numStats) :
    Encoder.start.events (events ++ [.fieldEnd, .streamEnd]) =
      .ok (bytes ++ s.missingMarkers, s.encoder) := by
  have markers : s.missingMarkers = s.encoder.fieldEnd.1 ++ s.encoder.streamEnd.1 := by
    simp only [missingMarkers, inField.opened, inField.unended, if_true, Bool.false_eq_true,
      if_false]
  rw [markers, ← List.append_assoc, List.append_cons]
  exact Encoder.events_concat (Encoder.events_concat h rfl) rfl

end Operations

end OutputStream
end TermStats
