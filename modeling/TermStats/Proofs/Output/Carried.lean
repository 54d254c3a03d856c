import TermStats.Proofs.Output.Calls

/-!
What a stream has on its way: whole records in their order, with marks that fit them. A call that
succeeds keeps this on any socket. So does a failure that leaves the bytes on their way and the
marks alone, as a refusal does; and on a socket that never fails there are no others.
-/

namespace TermStats

open Wire (Encoder EncoderCall Event Leads OfKinds Scope)

/-- The state of a stream in a scope. -/
def Wire.Scope.state : Scope → StreamState
  | outside => .idle
  | inField .. => .inField
  | ended => .ended

namespace OutputStream

theorem marks_advance {scope : Scope} {c : EncoderCall} (h : EncoderCall.Follows scope c)
    (s : OutputStream) :
    (scope.state = s.state → (c.next scope).state = (s.advance c).state) ∧
      (s.fieldOpen = decide (scope.state = .inField) →
        (s.advance c).fieldOpen = decide ((c.next scope).state = .inField)) ∧
      (s.endWritten = decide (scope.state = .ended) →
        (s.advance c).endWritten = decide ((c.next scope).state = .ended)) := by
  cases h with
  | fieldStart | fieldEnd => exact ⟨fun _ => rfl, fun _ => rfl, id⟩
  | term => exact ⟨id, id, id⟩
  | streamEnd => exact ⟨fun _ => rfl, id, fun _ => rfl⟩

/-- Behind `base`, the records of `events` are on their way and no more, and the marks of the stream
are those of `scope`. The encoder is behind these records as long as others may follow. -/
structure Carries (base : Bytes) (events : List Event) (scope : Scope) (s : OutputStream) :
    Prop where
  records : ∃ bytes e, Encoder.start.events events = .ok (bytes, e) ∧
    s.socket.delivered = base ++ bytes ∧ (¬ s.Shut → e = s.encoder)
  state : ¬ s.Shut → scope.state = s.state
  stats : ¬ s.Shut → scope.HasStats s.encoder.numStats
  fieldOpen : s.fieldOpen = decide (scope.state = .inField)
  endWritten : s.endWritten = decide (scope.state = .ended)

theorem carries_onSocket (socket : Socket) (capacity : Nat) :
    (onSocket socket capacity).Carries socket.sent [] .outside :=
  ⟨⟨[], _, rfl, rfl, fun _ => rfl⟩, fun _ => rfl, fun _ => Scope.hasStats_outside _, rfl, rfl⟩

section Carries

variable {s s' : OutputStream} {base : Bytes} {events : List Event} {scope : Scope}
  {c : EncoderCall}

theorem follows_of_expected (state : scope.state = s.state) (expected : s.state = c.expected) :
    EncoderCall.Follows scope c := by
  rw [expected] at state
  cases c with
  | fieldStart => cases scope <;> first | exact .fieldStart .. | cases state
  | term => cases scope <;> first | exact .term .. | cases state
  | fieldEnd => cases scope <;> first | exact .fieldEnd | cases state
  | streamEnd => cases scope <;> first | exact .streamEnd | cases state

theorem not_shut_of_expected (expected : s.state = c.expected) : ¬ s.Shut := by
  rintro (h | h) <;> rw [h] at expected <;> cases c <;> cases expected

theorem encoder_advance (s : OutputStream) (c : EncoderCall) :
    (s.advance c).encoder = s.encoder ∧ (s.advance c).socket = s.socket := by
  cases c <;> exact ⟨rfl, rfl⟩

theorem hasStats_next {numStats : Nat} (h : EncoderCall.Follows scope c)
    (stats : scope.HasStats numStats) : (c.next scope).HasStats (c.statsAfter numStats) := by
  cases h with
  | fieldStart =>
      intro _ _ h
      cases h
      rfl
  | term => exact stats
  | fieldEnd | streamEnd => exact nofun

/-- A writing call that succeeds comes in its place and adds its record. -/
theorem Carries.write_ok (carries : s.Carries base events scope)
    (h : s.write c = (.ok (), s')) :
    ¬ s.Shut ∧ EncoderCall.Follows scope c ∧
      (∃ record, s.encoder.call c = (.ok record, s'.encoder)) ∧
      s'.Carries base (events ++ [c.event s.encoder.numStats]) (c.next scope) := by
  have outcome := s.write_cases c
  rw [h] at outcome
  generalize hr : ((.ok (), s') : Attempt OutputStream) = r at outcome
  cases outcome with
  | refused | failed => cases hr
  | @emitted record encoder b expected encoded sent =>
      obtain ⟨-, rfl⟩ := Prod.mk.inj hr
      have going := not_shut_of_expected expected
      obtain ⟨bytes, e, hevents, hdelivered, same⟩ := carries.records
      obtain rfl := same going
      have follows := follows_of_expected (carries.state going) expected
      obtain ⟨hevent, -, hstats⟩ := EncoderCall.event_of_call encoded
      obtain ⟨state, fieldOpen, endWritten⟩ := marks_advance follows
        { s with encoder := encoder, socket := b }
      obtain ⟨kept, written⟩ := encoder_advance { s with encoder := encoder, socket := b } c
      refine ⟨going, follows, ⟨record, by rw [kept, encoded]⟩,
        ⟨bytes ++ record, encoder, ?_, ?_, ?_⟩, fun _ => state (carries.state going), fun _ => ?_,
        fieldOpen carries.fieldOpen, endWritten carries.endWritten⟩
      · exact Encoder.events_concat hevents hevent
      · rw [written, BufferedSocket.write_ok sent, hdelivered, List.append_assoc]
      · exact fun _ => kept.symm
      · rw [kept]
        dsimp only
        rw [hstats]
        exact hasStats_next follows (carries.stats going)

/-- What a stream carries stays when the bytes on their way and the marks do, and no record
follows. -/
theorem Carries.shut (carries : s.Carries base events scope) (shut : s'.Shut)
    (delivered : s'.socket.delivered = s.socket.delivered) (fieldOpen : s'.fieldOpen = s.fieldOpen)
    (endWritten : s'.endWritten = s.endWritten) : s'.Carries base events scope := by
  obtain ⟨bytes, e, hevents, hdelivered, _⟩ := carries.records
  exact ⟨⟨bytes, e, hevents, delivered.trans hdelivered, fun going => absurd shut going⟩,
    fun going => absurd shut going, fun going => absurd shut going,
    fieldOpen.trans carries.fieldOpen, endWritten.trans carries.endWritten⟩

theorem Carries.flush (carries : s.Carries base events scope)
    (delivered : s.flush.2.socket.delivered = s.socket.delivered) :
    s.flush.2.Carries base events scope := by
  rw [OutputStream.flush] at delivered ⊢
  revert delivered
  cases s.socket.flush with
  | mk x b =>
      intro delivered
      obtain ⟨bytes, e, hevents, hdelivered, same⟩ := carries.records
      cases x with
      | ok _ =>
          exact ⟨⟨bytes, e, hevents, delivered.trans hdelivered, same⟩, carries.state,
            carries.stats, carries.fieldOpen, carries.endWritten⟩
      | error f =>
          cases f with
          | error _ => exact carries.shut (.inr rfl) delivered rfl rfl
          | panic _ =>
              exact ⟨⟨bytes, e, hevents, delivered.trans hdelivered, same⟩, carries.state,
                carries.stats, carries.fieldOpen, carries.endWritten⟩

/-- A flush that succeeds leaves nothing in the buffer and changes nothing else. -/
theorem Carries.flush_ok (carries : s.Carries base events scope) (ok : s.flush.1 = .ok ()) :
    s.flush.2.Carries base events scope ∧ s.flush.2.encoder = s.encoder ∧
      s.flush.2.socket.buffer = [] := by
  rw [OutputStream.flush, settle_fst] at ok
  have flushed : s.socket.flush = (.ok (), s.socket.flush.2) := Prod.ext ok rfl
  have same : s.flush.2 = { s with socket := s.socket.flush.2 } := by
    rw [OutputStream.flush, flushed]
    rfl
  refine ⟨carries.flush ?_, by rw [same], ?_⟩
  · rw [same]
    exact BufferedSocket.delivered_flush_ok flushed
  · rw [same]
    exact (BufferedSocket.flush_ok flushed).2

/-- The markers that a stream lacks are the records of the events that its scope lacks. -/
theorem Carries.events_closing (carries : s.Carries base events scope) :
    ∃ bytes e, Encoder.start.events (events ++ scope.closing) =
      .ok (bytes, e) ∧ s.socket.delivered ++ s.missingMarkers = base ++ bytes := by
  obtain ⟨bytes, e, hevents, hdelivered, _⟩ := carries.records
  refine ⟨bytes ++ s.missingMarkers, e, ?_, by rw [hdelivered, List.append_assoc]⟩
  simp only [missingMarkers, carries.fieldOpen, carries.endWritten]
  cases scope with
  | outside => exact Encoder.events_concat hevents rfl
  | inField kind numStats =>
      have inner : Encoder.start.events (events ++ [.fieldEnd]) =
          .ok (bytes ++ s.encoder.fieldEnd.1, e) :=
        Encoder.events_concat hevents rfl
      have both : Encoder.start.events (events ++ [.fieldEnd] ++ [.streamEnd]) =
          .ok (bytes ++ s.encoder.fieldEnd.1 ++ s.encoder.streamEnd.1, e) :=
        Encoder.events_concat inner rfl
      rw [List.append_assoc, List.append_assoc] at both
      exact both
  | ended => simpa [Scope.closing, Scope.state] using hevents

/-- Closing adds the markers, on any socket, as soon as they count as written and are on their
way. -/
theorem Carries.closed (carries : s.Carries base events scope) (shut : s'.Shut)
    (delivered : s'.socket.delivered = s.socket.delivered ++ s.missingMarkers)
    (fieldOpen : s'.fieldOpen = false) (endWritten : s'.endWritten = true) :
    s'.Carries base (events ++ scope.closing) .ended := by
  obtain ⟨bytes, e, hevents, hdelivered⟩ := carries.events_closing
  exact ⟨⟨bytes, e, hevents, delivered.trans hdelivered, fun going => absurd shut going⟩,
    fun going => absurd shut going, fun going => absurd shut going, fieldOpen, endWritten⟩

/-- When a stream could be closed, all that was on its way has been accepted, with the markers. -/
theorem delivered_close (h : s.closeAfterFailure = (.ok (), s')) :
    s'.socket.delivered = s.socket.delivered ++ s.missingMarkers ∧ s'.socket.buffer = [] ∧
      s'.fieldOpen = false ∧ s'.endWritten = true := by
  have outcome := s.close_cases
  rw [h] at outcome
  generalize hr : ((.ok (), s') : Attempt OutputStream) = r at outcome
  cases outcome with
  | unwritten | unflushed => cases hr
  | ended written flushed =>
      obtain ⟨-, rfl⟩ := Prod.mk.inj hr
      have delivered := BufferedSocket.delivered_flush_ok flushed
      rw [BufferedSocket.write_ok written] at delivered
      exact ⟨delivered, (BufferedSocket.flush_ok flushed).2, rfl, rfl⟩

/-- A stream that could be closed carries a complete stream. -/
theorem Carries.close_ok (carries : s.Carries base events scope)
    (h : s.closeAfterFailure = (.ok (), s')) :
    s'.Carries base (events ++ scope.closing) .ended ∧ s'.socket.buffer = [] := by
  have shut := s.shut_closeAfterFailure
  rw [h] at shut
  obtain ⟨delivered, empty, fieldOpen, endWritten⟩ := delivered_close h
  exact ⟨carries.closed shut delivered fieldOpen endWritten, empty⟩

/-- When the buffer is empty, the records that a stream carries have been accepted. -/
theorem Carries.sent (carries : s.Carries base events scope) (empty : s.socket.buffer = [])
    {bytes : Bytes} {e : Encoder} (hevents : Encoder.start.events events = .ok (bytes, e)) :
    s.socket.socket.sent = base ++ bytes := by
  obtain ⟨bytes', e', hevents', hdelivered, _⟩ := carries.records
  obtain ⟨rfl, -⟩ := Prod.mk.inj (Except.ok.inj (hevents'.symm.trans hevents))
  rw [← hdelivered, BufferedSocket.delivered, empty, List.append_nil]

end Carries

end OutputStream
end TermStats
