import TermStats.Wire.Decoder
import TermStats.Result

/-!
The events of a whole stream. Each event takes a byte or more from the data, so a
decoder stops after finitely many items.
-/

namespace TermStats.Wire

open Result

namespace Decoder

theorem length_of_readStats {count : Nat} {r r' : Reader} {stats : List Int64}
    (h : readStats count r = .ok (stats, r')) : r'.rest.length ≤ r.rest.length := by
  induction count generalizing r r' stats with
  | zero => cases h; exact Nat.le_refl _
  | succ count ih =>
      simp only [readStats, bind_eq_ok] at h
      obtain ⟨⟨stat, r₁⟩, h₁, ⟨more, r₂⟩, h₂, h₃⟩ := h
      cases h₃
      dsimp only at h₂
      have h₁ := Reader.length_of_readZigzag h₁
      have h₂ := ih h₂
      show r₂.rest.length ≤ r.rest.length
      omega

theorem length_of_readGroups {numStats count last : Nat} {r r' : Reader} {groups : List GroupRow}
    (h : readGroups numStats count last r = .ok (groups, r')) :
    r'.rest.length ≤ r.rest.length := by
  induction count generalizing last r r' groups with
  | zero => cases h; exact Nat.le_refl _
  | succ count ih =>
      simp only [readGroups, bind_eq_ok, mapError_eq_ok] at h
      obtain ⟨⟨delta, r₁⟩, h₁, h⟩ := h
      split at h
      · exact absurd h throw_ne_ok
      · simp only [bind_eq_ok, mapError_eq_ok] at h
        obtain ⟨⟨stats, r₂⟩, h₂, ⟨more, r₃⟩, h₃, h₄⟩ := h
        cases h₄
        dsimp only at h₂ h₃
        have h₁ := Reader.length_of_readU64 h₁
        have h₂ := length_of_readStats h₂
        have h₃ := ih h₃
        show r₃.rest.length ≤ r.rest.length
        omega

theorem length_of_readFieldStart {d d' : Decoder} {ev : Event}
    (h : d.readFieldStart = .ok (ev, d')) :
    d'.reader.rest.length < d.reader.rest.length := by
  simp only [readFieldStart, bind_eq_ok, mapError_eq_ok] at h
  obtain ⟨⟨tag, r₁⟩, h₁, h⟩ := h
  split at h
  · simp only [bind_eq_ok, mapError_eq_ok] at h
    obtain ⟨⟨length, r₂⟩, h₂, ⟨bytes, r₃⟩, h₃, h⟩ := h
    split at h
    · simp only [bind_eq_ok, mapError_eq_ok] at h
      obtain ⟨⟨numStats, r₄⟩, h₄, h⟩ := h
      cases h
      dsimp only at h₂ h₃ h₄
      have h₁ := Reader.length_of_readByte h₁
      have h₂ := Reader.length_of_readU64 h₂
      have h₃ := Reader.length_of_readBytes h₃
      have h₄ := Reader.length_of_readU64 h₄
      show r₄.rest.length < d.reader.rest.length
      omega
    · exact absurd h throw_ne_ok
  · exact absurd h throw_ne_ok

theorem length_of_readTermKey {d d' : Decoder} {kind : TermKind} {id : TermId}
    (h : d.readTermKey kind = .ok (id, d')) :
    d'.reader.rest.length < d.reader.rest.length := by
  cases kind with
  | int =>
      simp only [readTermKey, bind_eq_ok, mapError_eq_ok] at h
      obtain ⟨⟨delta, r₁⟩, h₁, h⟩ := h
      cases h
      exact Reader.length_of_readZigzag h₁
  | string =>
      simp only [readTermKey, bind_eq_ok, mapError_eq_ok] at h
      obtain ⟨⟨shared, r₁⟩, h₁, ⟨added, r₂⟩, h₂, h⟩ := h
      split at h
      · exact absurd h throw_ne_ok
      · simp only [bind_eq_ok, mapError_eq_ok] at h
        obtain ⟨⟨suffix, r₃⟩, h₃, h⟩ := h
        cases h
        dsimp only at h₂ h₃
        have h₁ := Reader.length_of_readU64 h₁
        have h₂ := Reader.length_of_readU64 h₂
        have h₃ := Reader.length_of_readBytes h₃
        show r₃.rest.length < d.reader.rest.length
        omega

theorem length_of_readTerm {d d' : Decoder} {kind : TermKind} {ev : Event}
    (h : d.readTerm kind = .ok (ev, d')) :
    d'.reader.rest.length < d.reader.rest.length := by
  simp only [readTerm, bind_eq_ok, mapError_eq_ok] at h
  obtain ⟨⟨id, d₁⟩, h₁, ⟨docFreq, r₂⟩, h₂, ⟨count, r₃⟩, h₃, ⟨groups, r₄⟩, h₄, h⟩ := h
  cases h
  dsimp only at h₂ h₃ h₄
  have h₁ := length_of_readTermKey h₁
  have h₂ := Reader.length_of_readU64 h₂
  have h₃ := Reader.length_of_readU64 h₃
  have h₄ := length_of_readGroups h₄
  show r₄.rest.length < d.reader.rest.length
  omega

theorem length_of_readRecord {d d' : Decoder} {tag : RecordTag} {ev : Event}
    (h : d.readRecord tag = .ok (ev, d')) :
    d'.reader.rest.length ≤ d.reader.rest.length := by
  simp only [readRecord] at h
  split at h
  · exact Nat.le_of_lt (length_of_readFieldStart h)
  · exact Nat.le_of_lt (length_of_readTerm h)
  · cases h; exact Nat.le_refl _
  · cases h; exact Nat.le_refl _
  · cases h

/-- Every event takes at least its tag from the data. -/
theorem length_of_readEvent {d d' : Decoder} {ev : Event} (h : d.readEvent = .ok (ev, d')) :
    d'.reader.rest.length < d.reader.rest.length := by
  simp only [readEvent, bind_eq_ok, mapError_eq_ok] at h
  obtain ⟨⟨byte, r₁⟩, h₁, h⟩ := h
  split at h
  · exact Nat.lt_of_le_of_lt (length_of_readRecord h) (Reader.length_of_readByte h₁)
  · exact absurd h throw_ne_ok

/-- The most items a decoder may still yield. -/
def budget (d : Decoder) : Nat :=
  if d.failed then 0 else d.reader.rest.length

theorem budget_of_next {d d' : Decoder} {x : Except StreamFault Event}
    (h : d.next = (some x, d')) : d'.budget < d.budget := by
  simp only [next] at h
  split at h
  · simp at h
  · rename_i hd
    simp only [not_or, Bool.not_eq_true] at hd
    split at h
    · cases h
      have hr : d.reader.rest ≠ [] := by simpa [Reader.isEmpty] using hd.2.2
      simp [budget, hd.1, List.length_pos_iff.2 hr]
    · rename_i hr
      cases h
      have hl := length_of_readEvent hr
      simp only [budget, hd.1, Bool.false_eq_true, if_false]
      split <;> omega

/-- What the decoder yields until it stops (events, and at most one fault, at the end), and how it
is left. -/
def items (d : Decoder) : List (Except StreamFault Event) × Decoder :=
  match _h : d.next with
  | (none, d') => ([], d')
  | (some x, d') => (x :: d'.items.1, d'.items.2)
termination_by d.budget
decreasing_by all_goals exact budget_of_next _h

end Decoder

/-- The events of a complete stream: it ends with `streamEnd` and nothing follows. -/
def decodeStream (data : Bytes) : Except StreamFault (List Event) := do
  let (items, d) := (Decoder.ofBytes data).items
  let events ← items.mapM id
  if !d.isComplete then throw .missingEnd
  if !d.reader.isEmpty then throw .trailingBytes
  return events

end TermStats.Wire
