import TermStats.Field.Entry
import TermStats.Proofs.Varint.Digits

/-!
Which bytes are an entry of a term file. The decoder takes an entry from its place exactly when
there is one, and what there is does not depend on the bytes behind it.
-/

namespace TermStats

open Result Varint

/-- An entry after a string term, if it is a string's: its bytes, what it stores, and the string
term that it leads to. -/
inductive IsEntry : TermKind → (previous taken : Bytes) → EntryDeltas → (term : Bytes) → Prop where
  | int {previous a b c : Bytes} {idDelta offsetDelta docFreq : Int64} :
      IsVarint a idDelta.toUInt64 → IsVarint b offsetDelta.toUInt64 →
      IsVarint c docFreq.toUInt64 →
      IsEntry .int previous (a ++ (b ++ c)) ⟨idDelta, offsetDelta, docFreq⟩ previous
  | string {previous a b suffix c d : Bytes} {removed added : UInt64}
      {offsetDelta docFreq : Int64} :
      IsVarint a removed → IsVarint b added → removed.toNat ≤ previous.length →
      suffix.length = added.toNat → IsVarint c offsetDelta.toUInt64 →
      IsVarint d docFreq.toUInt64 →
      IsEntry .string previous (a ++ (b ++ (suffix ++ (c ++ d)))) ⟨0, offsetDelta, docFreq⟩
        (previous.take (previous.length - removed.toNat) ++ suffix)

variable {kind : TermKind} {previous taken term : Bytes} {entry : EntryDeltas}

/-- The number of varints in an entry. -/
def TermKind.varints : TermKind → Nat
  | .int => 3
  | .string => 4

theorem TermKind.varints_ge (kind : TermKind) : 3 ≤ kind.varints := by
  cases kind <;> decide

/-- An entry has a byte for each of its varints at least. -/
theorem IsEntry.varints_le (h : IsEntry kind previous taken entry term) :
    kind.varints ≤ taken.length := by
  cases h with
  | int a b c =>
      have := a.length_pos
      have := b.length_pos
      have := c.length_pos
      simp only [TermKind.varints, List.length_append]
      omega
  | string a b _ _ c d =>
      have := a.length_pos
      have := b.length_pos
      have := c.length_pos
      have := d.length_pos
      simp only [TermKind.varints, List.length_append]
      omega

theorem IsEntry.length_ge (h : IsEntry kind previous taken entry term) : 3 ≤ taken.length :=
  Nat.le_trans kind.varints_ge h.varints_le

theorem readIntEntry_iff {pos : Nat} {bytes : Bytes} {r : Reader} :
    readIntEntry ⟨pos, bytes⟩ = .ok (entry, r) ↔ ∃ taken rest, bytes = taken ++ rest ∧
      IsEntry .int previous taken entry previous ∧ r = ⟨pos + taken.length, rest⟩ := by
  simp only [readIntEntry, bind_eq_ok, pure_eq_ok]
  refine ⟨?_, ?_⟩
  · rintro ⟨⟨idDelta, r₁⟩, h₁, ⟨offsetDelta, r₂⟩, h₂, ⟨docFreq, r₃⟩, h₃, h⟩
    obtain ⟨a, _, rfl, ha, rfl⟩ := Reader.readInt_iff.mp h₁
    obtain ⟨b, _, rfl, hb, rfl⟩ := Reader.readInt_iff.mp h₂
    obtain ⟨c, rest, rfl, hc, rfl⟩ := Reader.readInt_iff.mp h₃
    cases h
    exact ⟨a ++ (b ++ c), rest, by simp, .int ha hb hc, by simp [Nat.add_assoc]⟩
  · rintro ⟨_, rest, rfl, h, rfl⟩
    cases h with
    | @int _ a b c _ _ _ ha hb hc =>
        refine ⟨_, Reader.readInt_iff.mpr ⟨a, b ++ (c ++ rest), by simp, ha, rfl⟩, _,
          Reader.readInt_iff.mpr ⟨b, c ++ rest, rfl, hb, rfl⟩, _,
          Reader.readInt_iff.mpr ⟨c, rest, rfl, hc, rfl⟩, ?_⟩
        simp [Nat.add_assoc]

theorem readStringEntry_iff {pos : Nat} {bytes : Bytes} {r : Reader} :
    readStringEntry previous ⟨pos, bytes⟩ = .ok (entry, term, r) ↔ ∃ taken rest,
      bytes = taken ++ rest ∧ IsEntry .string previous taken entry term ∧
        r = ⟨pos + taken.length, rest⟩ := by
  simp only [readStringEntry, bind_eq_ok, mapError_eq_ok]
  refine ⟨?_, ?_⟩
  · rintro ⟨⟨removed, r₁⟩, h₁, ⟨added, r₂⟩, h₂, h⟩
    obtain ⟨a, _, rfl, ha, rfl⟩ := Reader.readU64_iff.mp h₁
    obtain ⟨b, _, rfl, hb, rfl⟩ := Reader.readU64_iff.mp h₂
    split at h
    · exact absurd h throw_ne_ok
    · rename_i within
      simp only [bind_eq_ok, mapError_eq_ok, pure_eq_ok] at h
      obtain ⟨⟨suffix, r₃⟩, h₃, ⟨offsetDelta, r₄⟩, h₄, ⟨docFreq, r₅⟩, h₅, h⟩ := h
      obtain ⟨length, _, rfl, rfl⟩ := Reader.readBytes_iff.mp h₃
      obtain ⟨c, _, rfl, hc, rfl⟩ := Reader.readInt_iff.mp h₄
      obtain ⟨d, rest, rfl, hd, rfl⟩ := Reader.readInt_iff.mp h₅
      cases h
      exact ⟨a ++ (b ++ (suffix ++ (c ++ d))), rest, by simp,
        .string ha hb (Nat.le_of_not_lt within) length hc hd, by simp [length, Nat.add_assoc]⟩
  · rintro ⟨_, rest, rfl, h, rfl⟩
    cases h with
    | @string _ a b suffix c d _ _ _ _ ha hb within length hc hd =>
        refine ⟨_, Reader.readU64_iff.mpr ⟨a, b ++ (suffix ++ (c ++ (d ++ rest))), by simp, ha,
          rfl⟩, _, Reader.readU64_iff.mpr ⟨b, suffix ++ (c ++ (d ++ rest)), rfl, hb, rfl⟩, ?_⟩
        rw [if_neg (Nat.not_lt.mpr within)]
        simp only [bind_eq_ok, mapError_eq_ok, pure_eq_ok]
        refine ⟨_, Reader.readBytes_iff.mpr ⟨length, c ++ (d ++ rest), rfl, rfl⟩, _,
          Reader.readInt_iff.mpr ⟨c, d ++ rest, rfl, hc, rfl⟩, _,
          Reader.readInt_iff.mpr ⟨d, rest, rfl, hd, rfl⟩, ?_⟩
        simp [length, Nat.add_assoc]

namespace TermDecoder

variable {data : Bytes} {pos : Nat}

/-- The decoder takes an entry from its place exactly when one is there. -/
theorem next_eq_some_iff (within : pos ≤ data.length) {d : TermDecoder} :
    (⟨kind, data, pos, previous⟩ : TermDecoder).next = (.ok (some entry), d) ↔
      ∃ taken rest term, data.drop pos = taken ++ rest ∧ IsEntry kind previous taken entry term ∧
        d = ⟨kind, data, pos + taken.length, term⟩ := by
  have start : Reader.atOffset data pos = .ok ⟨pos, data.drop pos⟩ :=
    if_neg (Nat.not_lt.mpr within)
  simp only [next, start]
  refine ⟨fun h => ?_, ?_⟩
  · split at h
    · cases h
    · cases kind with
      | int =>
          dsimp only at h
          split at h
          · cases h
          · rename_i hread
            cases h
            obtain ⟨taken, rest, hdrop, he, rfl⟩ := readIntEntry_iff.mp hread
            exact ⟨taken, rest, previous, hdrop, he, rfl⟩
      | string =>
          dsimp only at h
          split at h
          · cases h
          · rename_i hread
            cases h
            obtain ⟨taken, rest, hdrop, he, rfl⟩ := readStringEntry_iff.mp hread
            exact ⟨taken, rest, _, hdrop, he, rfl⟩
  · rintro ⟨taken, rest, term, hdrop, he, rfl⟩
    have more : ¬ (⟨pos, data.drop pos⟩ : Reader).isEmpty = true := by
      have := he.length_ge
      rw [Reader.isEmpty, List.isEmpty_iff, hdrop, List.append_eq_nil_iff]
      rintro ⟨rfl, -⟩
      contradiction
    rw [if_neg more]
    cases kind with
    | int =>
        have same : term = previous := by cases he; rfl
        subst same
        simp only [readIntEntry_iff.mpr ⟨taken, rest, hdrop, he, rfl⟩]
    | string =>
        simp only [readStringEntry_iff.mpr ⟨taken, rest, hdrop, he, rfl⟩]

/-- The decoder reports the end exactly when nothing is left. -/
theorem next_eq_none_iff (kind : TermKind) (previous : Bytes) (within : pos ≤ data.length) :
    (⟨kind, data, pos, previous⟩ : TermDecoder).next.1 = .ok none ↔ data.drop pos = [] := by
  have start : Reader.atOffset data pos = .ok ⟨pos, data.drop pos⟩ :=
    if_neg (Nat.not_lt.mpr within)
  simp only [next, start]
  by_cases hdrop : data.drop pos = []
  · simp [hdrop, Reader.isEmpty]
  · refine ⟨fun h => ?_, fun h => absurd h hdrop⟩
    rw [if_neg (by simpa [Reader.isEmpty] using hdrop)] at h
    split at h
    · split at h <;> cases h
    · split at h <;> cases h

end TermDecoder
end TermStats
