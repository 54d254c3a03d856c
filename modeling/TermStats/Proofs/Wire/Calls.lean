import TermStats.Proofs.Wire.RoundTrip

/-!
Sequences of calls on an encoder, some of which may be refused. A refused call appends nothing and
leaves the encoder alone, so the records are those of the other calls; when these are the calls of a
complete stream, the stream is decoded to its events.
-/

namespace TermStats.Wire

open Result

/-- A call on an encoder. The stats of a term come in one list, one group after another. -/
inductive EncoderCall where
  | fieldStart (name : String) (kind : TermKind) (numStats : Nat)
  | term (id : TermId) (docFreq : UInt64) (groups : List UInt32) (stats : List Int64)
  | fieldEnd
  | streamEnd
  deriving Repr, DecidableEq

/-- The call that encodes an event. -/
def EncoderCall.ofEvent : Event → EncoderCall
  | .fieldStart name kind numStats => .fieldStart name kind numStats
  | .term r => .term r.term r.docFreq (r.groups.map (·.group)) (r.groups.flatMap (·.stats))
  | .fieldEnd => .fieldEnd
  | .streamEnd => .streamEnd

namespace Encoder

/-- Makes a call: the record that it appends, unless it is refused, and the encoder that it leaves
behind. -/
def call (e : Encoder) : EncoderCall → Except EncodeFault Bytes × Encoder
  | .fieldStart name kind numStats => (e.fieldStart name kind numStats).map .ok id
  | .term id docFreq groups stats =>
      match e.term id docFreq groups stats with
      | .error f => (.error f, e)
      | .ok (record, e') => (.ok record, e')
  | .fieldEnd => e.fieldEnd.map .ok id
  | .streamEnd => e.streamEnd.map .ok id

/-- The records that some calls append, one after another. -/
def records (e : Encoder) : List EncoderCall → List Bytes
  | [] => []
  | c :: rest => (e.call c).1.toOption.toList ++ (e.call c).2.records rest

/-- Those of the calls that are not refused. -/
def accepted (e : Encoder) : List EncoderCall → List EncoderCall
  | [] => []
  | c :: rest => (if (e.call c).1.isOk then [c] else []) ++ (e.call c).2.accepted rest

variable {e e' : Encoder}

/-- A call appends its record, or it is a term that is refused and makes no difference. -/
theorem call_cases (e : Encoder) (c : EncoderCall) :
    (∃ record e', e.call c = (.ok record, e')) ∨ ∃ f, e.call c = (.error f, e) := by
  cases c with
  | fieldStart | fieldEnd | streamEnd => exact .inl ⟨_, _, rfl⟩
  | term id docFreq groups stats =>
      simp only [call]
      split
      · exact .inr ⟨_, rfl⟩
      · exact .inl ⟨_, _, rfl⟩

theorem call_of_event {ev : Event} {record : Bytes} (h : e.event ev = .ok (record, e')) :
    e.call (.ofEvent ev) = (.ok record, e') := by
  cases ev with
  | fieldStart | fieldEnd | streamEnd =>
      cases h
      rfl
  | term r =>
      have h : e.term r.term r.docFreq (r.groups.map (·.group)) (r.groups.flatMap (·.stats)) =
        .ok (record, e') := h
      simp only [EncoderCall.ofEvent, call, h]

/-- Refused calls append nothing and change no later record. -/
theorem records_accepted (e : Encoder) (calls : List EncoderCall) :
    e.records (e.accepted calls) = e.records calls := by
  induction calls generalizing e with
  | nil => rfl
  | cons c rest ih =>
      rcases e.call_cases c with ⟨record, e', h⟩ | ⟨f, h⟩
      · simp only [records, accepted, h, Except.isOk, Except.toBool, if_true, List.cons_append,
          List.nil_append, ih]
      · simp only [records, accepted, h, Except.isOk, Except.toBool, Bool.false_eq_true, if_false,
          Except.toOption, Option.toList_none, List.nil_append, ih]

theorem flatten_records {events : List Event} {bytes : Bytes}
    (h : e.events events = .ok (bytes, e')) :
    (e.records (events.map .ofEvent)).flatten = bytes := by
  induction events generalizing e bytes with
  | nil =>
      cases h
      rfl
  | cons ev events ih =>
      obtain ⟨first, e₁, more, hfirst, hmore, rfl⟩ := events_cons_eq_ok h
      simp only [List.map_cons, records, call_of_event hfirst, Except.toOption, Option.toList_some,
        List.cons_append, List.nil_append, List.flatten_cons, ih hmore]

end Encoder

/-- Encoding the events of a complete stream record by record and decoding the result gives them
back, and it makes no difference if refused calls come between their calls. -/
theorem decode_accepted_calls {events : List Event} (leads : Leads .outside events .ended) :
    ∃ bytes e, Encoder.start.events events = .ok (bytes, e) ∧
      decodeStream bytes = .ok events ∧
      (Encoder.start.records (events.map .ofEvent)).flatten = bytes ∧
      ∀ calls, Encoder.start.accepted calls = events.map .ofEvent →
        Encoder.start.records calls = Encoder.start.records (events.map .ofEvent) := by
  obtain ⟨bytes, e, h⟩ := events_ok leads (tracks_start [])
  refine ⟨bytes, e, h, decodeStream_encode leads h, Encoder.flatten_records h, ?_⟩
  intro calls same
  rw [← same, Encoder.records_accepted]

/-- Two fields, with ids at both ends of their range and the first and the last group. -/
def extremeEvents : List Event :=
  [.fieldStart "x" .int 1,
    .term ⟨.int Int64.maxValue, 0, []⟩,
    .term ⟨.int Int64.minValue, 3, [⟨0, [Int64.minValue]⟩, ⟨4294967295, [Int64.maxValue]⟩]⟩,
    .fieldEnd,
    .fieldStart "" .string 0,
    .term ⟨.bytes [98, 255], 1, [⟨7, []⟩]⟩,
    .term ⟨.bytes [], 1, []⟩,
    .fieldEnd,
    .streamEnd]

/-- The calls of these events, and four refused ones: before the first field, two after the first
id, and in the second field. -/
def extremeCalls : List EncoderCall :=
  [.term (.int 0) 1 [] [5],
    .fieldStart "x" .int 1,
    .term (.int Int64.maxValue) 0 [] [],
    .term (.int 9) 1 [2, 2] [1, 1],
    .term (.int 9) 1 [2] [1, 1],
    .term (.int Int64.minValue) 3 [0, 4294967295] [Int64.minValue, Int64.maxValue],
    .fieldEnd,
    .fieldStart "" .string 0,
    .term (.bytes [98, 255]) 1 [7] [],
    .term (.bytes [1]) 1 [3, 2] [],
    .term (.bytes []) 1 [] [],
    .fieldEnd,
    .streamEnd]

theorem decode_accepted_calls_extreme :
    ∃ bytes, decodeStream bytes = .ok extremeEvents ∧
      (Encoder.start.records extremeCalls).flatten = bytes := by
  have ascends : ([0, 4294967295] : List UInt32).Pairwise (· < ·) := by decide
  have widths : ∀ row ∈ ([⟨0, [Int64.minValue]⟩, ⟨4294967295, [Int64.maxValue]⟩] : List GroupRow),
      row.stats.length = 1 := by
    decide
  have width : ∀ row ∈ ([⟨7, []⟩] : List GroupRow), row.stats.length = 0 := by decide
  have short : ([98, 255] : Bytes).length < 2 ^ 64 := by decide
  have leads : Leads .outside extremeEvents .ended :=
    .cons (.fieldStart _ _ _ (by decide) (by decide)) <|
    .cons (.term _ rfl trivial .nil nofun) <|
    .cons (.term _ rfl trivial ascends widths) <|
    .cons .fieldEnd <|
    .cons (.fieldStart _ _ _ (by decide) (by decide)) <|
    .cons (.term _ rfl short (List.pairwise_singleton _ _) width) <|
    .cons (.term _ rfl (Nat.two_pow_pos 64) .nil nofun) <|
    .cons .fieldEnd <|
    .cons .streamEnd (.nil _)
  have accepted : Encoder.start.accepted extremeCalls = extremeEvents.map .ofEvent := by
    decide +kernel
  obtain ⟨bytes, _, _, decoded, whole, same⟩ := decode_accepted_calls leads
  exact ⟨bytes, decoded, by rw [same _ accepted, whole]⟩

end TermStats.Wire
