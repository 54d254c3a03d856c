import TermStats.Field.Postings
import TermStats.Field.Writer
import TermStats.Proofs.Varint.RoundTrip

/-!
What a posting list gives, step by step. A list that was written is read back from its place,
whatever stands before and after it.
-/

namespace TermStats

theorem addExact?_eq_some {a b c : Int64} (h : addExact? a b = some c) :
    c.toInt = a.toInt + b.toInt := by
  simp only [addExact?] at h
  split at h
  · rename_i hr
    cases h
    exact Int64.toInt_ofInt_of_le hr.1 (Int.lt_of_le_of_lt hr.2 (by decide))
  · cases h

theorem addExact?_of_toInt {a b c : Int64} (h : c.toInt = a.toInt + b.toInt) :
    addExact? a b = some c := by
  have least := c.minValue_le_toInt
  have most := c.toInt_le
  simp only [addExact?]
  rw [← h, if_pos ⟨least, Int.le_trans most (by decide)⟩, Int64.ofInt_toInt]

/-- A difference to a signed word that is a sum. -/
theorem sub_eq_of_toInt {a b c : Int64} (h : c.toInt = a.toInt + b.toInt) : c - a = b := by
  rw [← Int64.toInt_inj, Int64.toInt_sub, h, Int.add_comm, Int.add_sub_cancel]
  exact Int64.toInt_bmod b

/-- A difference of signed words that is one. -/
theorem toInt_sub_of_lt {a b : Int64} (le : b ≤ a) (lt : a.toInt - b.toInt < 2 ^ 63) :
    (a - b).toInt = a.toInt - b.toInt := by
  have nonneg := Int64.le_iff_toInt_le.mp le
  rw [Int64.toInt_sub]
  exact Int.bmod_eq_of_le (by omega) (by omega)

/-- A difference of signed words that is none, and wraps around. -/
theorem sub_neg_of_le {a b : Int64} (le : 2 ^ 63 ≤ a.toInt - b.toInt) : a - b < 0 := by
  have most := a.toInt_lt
  have least := b.le_toInt
  have zero : (0 : Int64).toInt = 0 := rfl
  rw [Int64.lt_iff_toInt_lt, Int64.toInt_sub, zero, Int.bmod_def,
    Int.emod_eq_of_lt (by omega) (by omega)]
  split <;> omega

theorem le_of_addExact? {a b c : Int64} (h : addExact? a b = some c) (hb : 0 ≤ b) : a ≤ c := by
  have hsum := addExact?_eq_some h
  rw [Int64.le_iff_toInt_le] at hb ⊢
  have hz : (0 : Int64).toInt = 0 := rfl
  omega

/-- Ids that can make a posting list. -/
structure IsPostings (ids : List Int64) : Prop where
  ascends : ids.Pairwise (· < ·)
  nonneg : ∀ id ∈ ids, 0 ≤ id

theorem isPostings_iff_head {ids : List Int64} :
    IsPostings ids ↔ ids.Pairwise (· < ·) ∧ ∀ first ∈ ids.head?, 0 ≤ first := by
  refine ⟨fun h => ⟨h.ascends, fun first hf => h.nonneg first (List.mem_of_mem_head? hf)⟩, ?_⟩
  rintro ⟨ascends, nonneg⟩
  refine ⟨ascends, fun id hid => ?_⟩
  cases ids with
  | nil => cases hid
  | cons first rest =>
      have first_nonneg := nonneg first rfl
      rcases List.mem_cons.mp hid with rfl | hid
      · exact first_nonneg
      · exact Int64.le_trans first_nonneg (Std.le_of_lt ((List.pairwise_cons.mp ascends).1 id hid))

theorem encodePostings_append (last : Int64) (ids more : List Int64) :
    encodePostings last (ids ++ more) =
      encodePostings last ids ++ encodePostings (ids.getLast?.getD last) more := by
  induction ids generalizing last with
  | nil => rfl
  | cons id rest ih =>
      rw [List.cons_append, encodePostings, encodePostings, ih, List.append_assoc,
        List.getLast?_cons, Option.getD_some]

namespace DocIds

/-- A fault leaves nothing more to read. -/
theorem next_error {d d' : DocIds} {f : PostingFault} (h : d.next = (some (.error f), d')) :
    d'.remaining = 0 := by
  simp only [next] at h
  split at h
  · cases h
  · split at h
    · cases h
      rfl
    · split at h
      · split at h <;> cases h
        rfl
      · cases h
        rfl

theorem items_of_done {d : DocIds} (h : d.remaining = 0) : d.items = [] := by
  rw [items]
  split
  · rfl
  · rename_i hnext
    simp [next, h] at hnext

theorem items_of_some {d d' : DocIds} {x : Except PostingFault Int64} (h : d.next = (some x, d')) :
    d.items = x :: d'.items := by
  rw [items]
  split
  · rename_i hn
    rw [h] at hn
    cases hn
  · rename_i hn
    rw [h] at hn
    cases hn
    rfl

theorem items_encodePostings {ids : List Int64} {last : Int64} {first : Bool} (nonneg : 0 ≤ last)
    (ascends : ids.Pairwise (· < ·))
    (above : ∀ id ∈ ids.head?, last ≤ id ∧ (first = false → last < id)) (pos : Nat)
    (rest : Bytes) :
    (⟨⟨pos, encodePostings last ids ++ rest⟩, ids.length, last, first⟩ : DocIds).items =
      ids.map .ok := by
  induction ids generalizing last first pos with
  | nil => exact items_of_done rfl
  | cons id ids ih =>
      obtain ⟨least, hrest⟩ := List.pairwise_cons.mp ascends
      obtain ⟨hle, hlt⟩ := above id rfl
      have delta : (id - last).toInt = id.toInt - last.toInt := by
        have := Int64.le_iff_toInt_le.mp nonneg
        have := id.toInt_lt
        have zero : (0 : Int64).toInt = 0 := rfl
        exact toInt_sub_of_lt hle (by omega)
      have sum : addExact? last (id - last) = some id := addExact?_of_toInt (by omega)
      have enough : leastDelta ⟨⟨pos, encodePostings last (id :: ids) ++ rest⟩, ids.length + 1,
          last, first⟩ ≤ id - last := by
        rw [Int64.le_iff_toInt_le, delta, leastDelta]
        have := Int64.le_iff_toInt_le.mp hle
        have zero : (0 : Int64).toInt = 0 := rfl
        have one : (1 : Int64).toInt = 1 := rfl
        cases first with
        | true =>
            simp only [if_true]
            omega
        | false =>
            have := Int64.lt_iff_toInt_lt.mp (hlt rfl)
            simp only [Bool.false_eq_true, if_false]
            omega
      have hnext : (⟨⟨pos, encodePostings last (id :: ids) ++ rest⟩, ids.length + 1, last, first⟩ :
          DocIds).next = (some (.ok id), ⟨⟨pos + (Varint.encodeInt (id - last)).length,
            encodePostings id ids ++ rest⟩, ids.length, id, false⟩) := by
        simp only [encodePostings, List.append_assoc] at enough ⊢
        simp only [next, Reader.readInt_encodeInt, sum, enough, if_true]
      rw [List.length_cons, items_of_some hnext, List.map_cons]
      have above' : ∀ next ∈ ids.head?, id ≤ next ∧ (false = false → id < next) := by
        intro next hn
        have hlt := least next (List.mem_of_mem_head? hn)
        exact ⟨Std.le_of_lt hlt, fun _ => hlt⟩
      exact congrArg _ (ih (Int64.le_trans nonneg hle) hrest above' _)

/-- As many ids are read as are asked for, of those that are there. -/
theorem items_of_count_le {ids : List Int64} (postings : IsPostings ids) {count : Nat}
    (few : count ≤ ids.length) (pos : Nat) (rest : Bytes) :
    (⟨⟨pos, encodePostings 0 ids ++ rest⟩, count, 0, true⟩ : DocIds).items =
      (ids.take count).map .ok := by
  have above : ∀ id ∈ (ids.take count).head?, 0 ≤ id ∧ (true = false → 0 < id) := fun id hid =>
    ⟨postings.nonneg id (List.mem_of_mem_take (List.mem_of_mem_head? hid)), nofun⟩
  have items := items_encodePostings (Std.le_refl 0)
    (postings.ascends.sublist (List.take_sublist count ids)) above pos
    (encodePostings ((ids.take count).getLast?.getD 0) (ids.drop count) ++ rest)
  rwa [List.length_take_of_le few, ← List.append_assoc, ← encodePostings_append,
    List.take_append_drop] at items

/-- What reading the posting list at a place yields. A place where no list can be is a fault. -/
def read (docs : Bytes) (offset : Int64) (freq : Int32) : List (Except PostingFault Int64) :=
  match locate docs offset freq with
  | .ok ids => ids.items
  | .error f => [.error f]

/-- A posting list can be asked for wherever bytes were appended. -/
theorem locate_append {before : Bytes} (short : before.length < 2 ^ 63) (after : Bytes) {freq : Int32}
    (count : 0 ≤ freq) : locate (before ++ after) (Int64.ofNat before.length) freq =
      .ok ⟨⟨before.length, after⟩, freq.toInt.toNat, 0, true⟩ := by
  have offset := Int64.toInt_ofNat_of_lt short
  have valid : ¬ (Int64.ofNat before.length < 0 ∨ freq < 0) := by
    have zero : (0 : Int64).toInt = 0 := rfl
    rw [not_or, Int64.lt_iff_toInt_lt, offset]
    exact ⟨by omega, Std.not_lt.mpr count⟩
  rw [locate, if_neg valid, offset, Int.toNat_natCast, Reader.atOffset_append]

/-- A posting list is read from where it was written. -/
theorem read_encodePostings {ids : List Int64} (ascends : ids.Pairwise (· < ·))
    (nonneg : ∀ first ∈ ids.head?, 0 ≤ first) {before : Bytes} (short : before.length < 2 ^ 63)
    (few : ids.length ≤ 2147483647) (after : Bytes) :
    read (before ++ (encodePostings 0 ids ++ after)) (Int64.ofNat before.length)
      (Int64.ofNat ids.length).toInt32 = ids.map .ok := by
  have freq : (Int64.ofNat ids.length).toInt32.toInt = ids.length := by
    rw [Int64.toInt_toInt32, Int64.toInt_ofNat_of_lt (by omega)]
    exact Int.bmod_eq_of_le (by omega) (by omega)
  have count : 0 ≤ (Int64.ofNat ids.length).toInt32 := by
    have zero : (0 : Int32).toInt = 0 := rfl
    rw [Int32.le_iff_toInt_le, freq]
    omega
  have postings : IsPostings ids := isPostings_iff_head.mpr ⟨ascends, nonneg⟩
  rw [read, locate_append short _ count, freq, Int.toNat_natCast]
  have items := items_of_count_le postings (Nat.le_refl ids.length) before.length after
  rwa [List.take_length] at items

end DocIds
end TermStats
