import TermStats.Proofs.Wire.Calls
import TermStats.Proofs.Wire.Decoded

/-!
The events that calls on an encoder stand for. A call that is not refused encodes its event, and the
event may come next in the order of records when the call does and a term is of the kind of the open
field. The kind is the caller's business: the encoder does not know it, but a decoder does.
-/

namespace TermStats.Wire

open Result

/-- The groups of a term with their stats, taken `numStats` at a time. -/
def rows (numStats : Nat) : List UInt32 → List Int64 → List GroupRow
  | [], _ => []
  | group :: groups, stats =>
      ⟨group, stats.take numStats⟩ :: rows numStats groups (stats.drop numStats)

section Rows

variable {numStats : Nat} {groups : List UInt32} {stats : List Int64}

theorem groups_rows : (rows numStats groups stats).map (·.group) = groups := by
  induction groups generalizing stats with
  | nil => rfl
  | cons group groups ih => exact congrArg (group :: ·) ih

theorem stats_rows (whole : stats.length = groups.length * numStats) :
    (rows numStats groups stats).flatMap (·.stats) = stats := by
  induction groups generalizing stats with
  | nil =>
      rw [List.length_nil, Nat.zero_mul, List.length_eq_zero_iff] at whole
      rw [whole]
      rfl
  | cons group groups ih =>
      have rest : (stats.drop numStats).length = groups.length * numStats := by
        rw [List.length_drop, whole, List.length_cons, Nat.succ_mul, Nat.add_sub_cancel]
      rw [rows, List.flatMap_cons, ih rest, List.take_append_drop]

theorem rows_fit (whole : stats.length = groups.length * numStats) :
    ∀ row ∈ rows numStats groups stats, row.Fits numStats := by
  induction groups generalizing stats with
  | nil => exact nofun
  | cons group groups ih =>
      rw [List.length_cons, Nat.succ_mul] at whole
      refine List.forall_mem_cons.mpr ⟨?_, ih ?_⟩
      · rw [GroupRow.Fits, List.length_take, whole]
        exact Nat.min_eq_left (Nat.le_add_left _ _)
      · rw [List.length_drop, whole, Nat.add_sub_cancel]

end Rows

/-- The kind of the open field, if there is one. -/
def Scope.kind? : Scope → Option TermKind
  | inField kind _ => some kind
  | outside | ended => none

/-- The events that a stream still lacks. -/
def Scope.closing : Scope → List Event
  | outside => [.streamEnd]
  | inField .. => [.fieldEnd, .streamEnd]
  | ended => []

theorem Leads.closing {start scope : Scope} {events : List Event} (h : Leads start events scope) :
    Leads start (events ++ scope.closing) .ended := by
  refine h.append ?_
  cases scope with
  | outside => exact .cons .streamEnd (.nil _)
  | inField => exact .cons .fieldEnd (.cons .streamEnd (.nil _))
  | ended => exact .nil _

namespace EncoderCall

/-- The event of a call when a group has `numStats` stats. -/
def event (numStats : Nat) : EncoderCall → Event
  | .fieldStart name kind numStats => .fieldStart name kind numStats
  | .term id docFreq groups stats => .term ⟨id, docFreq, rows numStats groups stats⟩
  | .fieldEnd => .fieldEnd
  | .streamEnd => .streamEnd

/-- The number of stats of a group after the call. -/
def statsAfter (numStats : Nat) : EncoderCall → Nat
  | .fieldStart _ _ numStats => numStats
  | .term .. | .fieldEnd | .streamEnd => numStats

/-- The events of calls that come one after another. -/
def events (numStats : Nat) : List EncoderCall → List Event
  | [] => []
  | c :: rest => c.event numStats :: events (c.statsAfter numStats) rest

/-- Where the call leads in the order of records. -/
def next (scope : Scope) : EncoderCall → Scope
  | .fieldStart _ kind numStats => .inField kind numStats
  | .term .. => scope
  | .fieldEnd => .outside
  | .streamEnd => .ended

/-- The kind of the field that is open after the call, if there is one. -/
def kindAfter (kind : Option TermKind) : EncoderCall → Option TermKind
  | .fieldStart _ kind _ => some kind
  | .term .. => kind
  | .fieldEnd | .streamEnd => none

/-- A term is of the kind of the open field, if there is one. -/
def OfKind (kind : Option TermKind) : EncoderCall → Prop
  | .term id .. => ∀ k ∈ kind, id.kind = k
  | .fieldStart .. | .fieldEnd | .streamEnd => True

/-- The sizes of its arguments are words. -/
def Fits : EncoderCall → Prop
  | .fieldStart name _ numStats => (Text.encode name).length < 2 ^ 64 ∧ numStats < 2 ^ 64
  | .term id .. => IdFits id
  | .fieldEnd | .streamEnd => True

def isTerm : EncoderCall → Bool
  | .term .. => true
  | .fieldStart .. | .fieldEnd | .streamEnd => false

/-- The calls that come in some scope, where it is in the order of records. -/
inductive Follows : Scope → EncoderCall → Prop where
  | fieldStart (name : String) (kind : TermKind) (numStats : Nat) :
      Follows .outside (.fieldStart name kind numStats)
  | term {kind : TermKind} {numStats : Nat} (id : TermId) (docFreq : UInt64) (groups : List UInt32)
      (stats : List Int64) : Follows (.inField kind numStats) (.term id docFreq groups stats)
  | fieldEnd {kind : TermKind} {numStats : Nat} : Follows (.inField kind numStats) .fieldEnd
  | streamEnd : Follows .outside .streamEnd

theorem kind_next {scope : Scope} {c : EncoderCall} (h : Follows scope c) :
    (c.next scope).kind? = c.kindAfter scope.kind? := by
  cases h <;> rfl

section Call

variable {scope : Scope} {c : EncoderCall} {e e' : Encoder} {record : Bytes}

/-- A call that is not refused encodes its event. -/
theorem event_of_call (h : e.call c = (.ok record, e')) :
    e.event (c.event e.numStats) = .ok (record, e') ∧ .ofEvent (c.event e.numStats) = c ∧
      e'.numStats = c.statsAfter e.numStats := by
  cases c with
  | fieldStart | fieldEnd | streamEnd =>
      cases h
      exact ⟨rfl, rfl, rfl⟩
  | term id docFreq groups stats =>
      simp only [Encoder.call] at h
      split at h
      · cases h
      · rename_i he
        cases h
        have accepted := he
        simp only [Encoder.term] at he
        split at he
        · cases he
        · rename_i whole
          split at he
          · cases he
          · cases he
            have whole := not_not.mp whole
            simp only [event, Encoder.event, ofEvent, groups_rows, stats_rows whole]
            exact ⟨accepted, trivial, numStats_termKey e id⟩

/-- The event of a call that comes in its place and is not refused may come next. -/
theorem allowed_of_call (h : e.call c = (.ok record, e')) (follows : Follows scope c)
    (stats : scope.HasStats e.numStats) (fits : c.Fits) (ofKind : c.OfKind scope.kind?) :
    Allowed scope (c.event e.numStats) (c.next scope) := by
  cases follows with
  | fieldStart name kind numStats => exact .fieldStart name kind numStats fits.1 fits.2
  | fieldEnd => exact .fieldEnd
  | streamEnd => exact .streamEnd
  | term id docFreq groups values =>
      have same := stats _ _ rfl
      simp only [Encoder.call, Encoder.term] at h
      split at h
      · cases h
      · rename_i he
        split at he
        · cases he
        · rename_i whole
          split at he
          · cases he
          · rename_i sorted
            have whole := not_not.mp whole
            rw [← same]
            refine .term _ (ofKind _ rfl) fits ?_ (rows_fit whole)
            rw [groups_rows]
            simpa [ascending_iff UInt32.lt_trans] using sorted

end Call

end EncoderCall

/-- Every term is of the kind of its field. -/
def OfKinds (kind : Option TermKind) : List Event → Prop
  | [] => True
  | ev :: rest =>
      (EncoderCall.ofEvent ev).OfKind kind ∧
        OfKinds ((EncoderCall.ofEvent ev).kindAfter kind) rest

theorem OfKinds.of_append {kind : Option TermKind} {events more : List Event}
    (h : OfKinds kind (events ++ more)) : OfKinds kind events := by
  induction events generalizing kind with
  | nil => trivial
  | cons ev rest ih => exact ⟨h.1, ih h.2⟩

def Place.kind? : Place → Option TermKind
  | inField kind => some kind
  | outsideField | ended => none

namespace Decoder

variable {d d' : Decoder} {ev : Event} {events : List Event}

theorem readTermKey_kind {kind : TermKind} {id : TermId} (h : d.readTermKey kind = .ok (id, d')) :
    id.kind = kind ∧ d'.place = d.place := by
  cases kind with
  | int =>
      simp only [readTermKey, bind_eq_ok] at h
      obtain ⟨_, _, h⟩ := h
      cases h
      exact ⟨rfl, rfl⟩
  | string =>
      simp only [readTermKey, bind_eq_ok] at h
      obtain ⟨_, _, _, _, h⟩ := h
      split at h
      · exact absurd h throw_ne_ok
      · simp only [bind_eq_ok] at h
        obtain ⟨_, _, h⟩ := h
        cases h
        exact ⟨rfl, rfl⟩

theorem readFieldStart_kind (h : d.readFieldStart = .ok (ev, d')) :
    ∃ name kind numStats, ev = .fieldStart name kind numStats ∧ d'.place = .inField kind := by
  simp only [readFieldStart, bind_eq_ok] at h
  obtain ⟨_, _, h⟩ := h
  split at h
  · simp only [bind_eq_ok] at h
    obtain ⟨_, _, _, _, h⟩ := h
    split at h
    · simp only [bind_eq_ok] at h
      obtain ⟨_, _, h⟩ := h
      cases h
      exact ⟨_, _, _, rfl, rfl⟩
    · exact absurd h throw_ne_ok
  · exact absurd h throw_ne_ok

/-- A decoder reads a term as one of the kind of the open field. -/
theorem readRecord_kind {tag : RecordTag} (h : d.readRecord tag = .ok (ev, d')) :
    (EncoderCall.ofEvent ev).OfKind d.place.kind? ∧
      d'.place.kind? = (EncoderCall.ofEvent ev).kindAfter d.place.kind? := by
  simp only [readRecord] at h
  split at h
  · obtain ⟨_, _, _, rfl, place⟩ := readFieldStart_kind h
    rw [place]
    exact ⟨trivial, rfl⟩
  · rename_i kind place
    simp only [readTerm, bind_eq_ok] at h
    obtain ⟨⟨id, d₁⟩, hid, _, _, _, _, _, _, h⟩ := h
    cases h
    obtain ⟨ofKind, same⟩ := readTermKey_kind hid
    simp only [EncoderCall.ofEvent, EncoderCall.OfKind, EncoderCall.kindAfter, same, place,
      Place.kind?]
    exact ⟨fun _ h => by cases h; exact ofKind, trivial⟩
  · cases h
    exact ⟨trivial, rfl⟩
  · cases h
    exact ⟨trivial, rfl⟩
  · cases h

theorem Yields.ofKinds (h : d.Yields events d') : OfKinds d.place.kind? events := by
  induction h with
  | nil d => trivial
  | cons hnext _ ih =>
      obtain ⟨_, _, _, h⟩ := next_eq_ok.mp hnext
      simp only [readEvent, bind_eq_ok] at h
      obtain ⟨_, _, h⟩ := h
      split at h
      · obtain ⟨ofKind, after⟩ := readRecord_kind h
        exact ⟨ofKind, after ▸ ih⟩
      · exact absurd h throw_ne_ok

end Decoder

/-- In a stream that is accepted every term is of the kind of its field. -/
theorem ofKinds_of_decodeStream {data : Bytes} {events : List Event}
    (h : decodeStream data = .ok events) : OfKinds none events := by
  obtain ⟨_, yields, _⟩ := decodeStream_eq_ok.mp h
  exact yields.ofKinds

end TermStats.Wire
