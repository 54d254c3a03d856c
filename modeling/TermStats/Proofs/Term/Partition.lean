import Mathlib.Algebra.Group.Int.Defs
import Mathlib.Algebra.GroupWithZero.Nat
import TermStats.Run.Settings

/-!
Where ids go. Whatever the hash, every partition rule gives every id one of the splits, as long as
their number is a positive signed word. A larger count stands for a negative divisor: an int id
still gets one of the splits, if any, but mostly not the one of its remainder by the count.
-/

namespace TermStats

namespace Partitioner

theorem splitOf?_hashingBy (hash : ByteHash) (seed : UInt64) (id : TermId) {numSplits : Nat}
    (pos : 0 < numSplits) :
    ∃ split, split < numSplits ∧ (hashingBy hash seed).splitOf? id numSplits = some split := by
  refine ⟨(id.hashBy hash seed).toNat % numSplits, Nat.mod_lt _ pos, ?_⟩
  rw [hashingBy]
  exact if_neg (Nat.ne_of_gt pos)

theorem toNat_emod_lt (v : Int) {numSplits : Nat} (pos : 0 < numSplits) :
    (v % numSplits).toNat < numSplits := by
  have positive : (0 : Int) < numSplits := Int.natCast_pos.mpr pos
  have nonneg := Int.emod_nonneg v (Int.ne_of_gt positive)
  have below := Int.emod_lt_of_pos v positive
  omega

/-- Remainders by a divisor depend on its size only, and from 2^63 on that shrinks again. -/
theorem emod_bmod (v : Int) {numSplits : Nat} (word : numSplits < 2 ^ 64) :
    v % Int.bmod numSplits UInt64.size = v % (min numSplits (2 ^ 64 - numSplits) : Nat) := by
  have size : UInt64.size = 2 ^ 64 := rfl
  by_cases small : numSplits < 2 ^ 63
  · have divisor : Int.bmod numSplits UInt64.size = numSplits := by
      apply Int.bmod_eq_of_le
      · omega
      · omega
    rw [divisor, Nat.min_eq_left (by omega)]
  · have divisor : Int.bmod numSplits UInt64.size = -((2 ^ 64 - numSplits : Nat) : Int) := by
      rw [Int.bmod_def, Int.emod_eq_of_lt (by omega) (by omega), if_neg (by omega)]
      omega
    rw [divisor, Int.emod_neg, Nat.min_eq_right (by omega)]

/-- The one id and the one count without a remainder. -/
theorem remainder?_last : remainder? Int64.minValue (2 ^ 64 - 1) = none := by
  decide

theorem remainder?_of_word (v : Int64) {numSplits : Nat} (pos : 0 < numSplits)
    (word : numSplits < 2 ^ 64) (defined : ¬ (numSplits = 2 ^ 64 - 1 ∧ v = Int64.minValue)) :
    remainder? v numSplits =
      some (v.toInt % (min numSplits (2 ^ 64 - numSplits) : Nat)).toNat := by
  have size : UInt64.size = 2 ^ 64 := rfl
  have divisor := Int.bmod_def (numSplits : Int) UInt64.size
  rw [Int.emod_eq_of_lt (by omega) (by omega)] at divisor
  have nonzero : Int.bmod numSplits UInt64.size ≠ 0 := by
    split at divisor <;> omega
  have last : Int.bmod numSplits UInt64.size = -1 ↔ numSplits = 2 ^ 64 - 1 := by
    split at divisor <;> omega
  unfold remainder?
  rw [← emod_bmod v.toInt word, if_neg]
  rintro (zero | undefined)
  · exact nonzero zero
  · exact defined ⟨last.mp undefined.1, undefined.2⟩

/-- The divisors of 2^64 leave a gap below 2^63. -/
theorem not_dvd_of_between {d : Nat} (above : 2 ^ 62 < d) (below : d < 2 ^ 63) : ¬ d ∣ 2 ^ 64 := by
  rintro ⟨times, product⟩
  have more : 2 < times := Nat.lt_of_not_le fun few => by
    have := Nat.mul_le_mul_left d few
    omega
  have fewer : times < 4 := Nat.lt_of_not_le fun many => by
    have := Nat.mul_le_mul_left d many
    omega
  have three : times = 3 := by omega
  rw [three] at product
  omega

/-- Beyond 2^63 only small ids that are not negative have the remainder by the count. -/
theorem emod_folded_eq_iff {v : Int} (least : -2 ^ 63 ≤ v) (most : v < 2 ^ 63) {numSplits : Nat}
    (large : 2 ^ 63 < numSplits) (word : numSplits < 2 ^ 64) :
    v % (2 ^ 64 - numSplits : Nat) = v % numSplits ↔ 0 ≤ v ∧ v + numSplits < 2 ^ 64 := by
  generalize size : 2 ^ 64 - numSplits = folded
  have below := Int.emod_lt_of_pos v (b := folded) (by omega)
  by_cases nonneg : 0 ≤ v
  · rw [Int.emod_eq_of_lt (b := numSplits) nonneg (by omega)]
    refine ⟨fun same => ⟨nonneg, by omega⟩, fun small => ?_⟩
    exact Int.emod_eq_of_lt nonneg (by omega)
  · have wrapped : v % numSplits = v + numSplits := by
      rw [← Int.add_emod_right, Int.emod_eq_of_lt (by omega) (by omega)]
    refine ⟨fun same => ?_, fun small => absurd small.1 nonneg⟩
    rw [wrapped] at same
    have product : (folded : Int) * (1 - v / folded) = 2 ^ 64 := by
      have := Int.mul_ediv_add_emod v folded
      rw [Int.mul_sub]
      omega
    have divides : folded ∣ 2 ^ 64 :=
      Int.natCast_dvd_natCast.mp ⟨_, product.symm⟩
    exact absurd divides (not_dvd_of_between (by omega) (by omega))

variable {numSplits : Nat}

theorem splitOf?_moduloBy_int (hash : ByteHash) (v : Int64) :
    (moduloBy hash).splitOf? (.int v) numSplits = remainder? v numSplits := by
  simp only [moduloBy]

theorem splitOf?_moduloBy_bytes (hash : ByteHash) (v : Bytes) :
    (moduloBy hash).splitOf? (.bytes v) numSplits =
      (hashingBy hash 0).splitOf? (.bytes v) numSplits := by
  simp only [moduloBy]

theorem remainder?_eq_none_iff (v : Int64) (pos : 0 < numSplits) (word : numSplits < 2 ^ 64) :
    remainder? v numSplits = none ↔ numSplits = 2 ^ 64 - 1 ∧ v = Int64.minValue := by
  refine ⟨fun h => ?_, ?_⟩
  · refine Classical.byContradiction fun defined => ?_
    rw [remainder?_of_word v pos word defined] at h
    cases h
  · rintro ⟨rfl, rfl⟩
    exact remainder?_last

theorem lt_of_remainder? {v : Int64} {split : Nat} (pos : 0 < numSplits)
    (word : numSplits < 2 ^ 64) (h : remainder? v numSplits = some split) : split < numSplits := by
  have defined : ¬ (numSplits = 2 ^ 64 - 1 ∧ v = Int64.minValue) := by
    rw [← remainder?_eq_none_iff v pos word, h]
    exact Option.some_ne_none _
  rw [remainder?_of_word v pos word defined] at h
  cases h
  exact Nat.lt_of_lt_of_le (toNat_emod_lt v.toInt (by omega)) (Nat.min_le_left _ _)

theorem remainder?_eq_emod_iff (v : Int64) (pos : 0 < numSplits) (word : numSplits < 2 ^ 64) :
    remainder? v numSplits = some (v.toInt % numSplits).toNat ↔
      numSplits ≤ 2 ^ 63 ∨ 0 ≤ v.toInt ∧ v.toInt + numSplits < 2 ^ 64 := by
  have least : -2 ^ 63 ≤ v.toInt := v.le_toInt
  have most : v.toInt < 2 ^ 63 := v.toInt_lt
  by_cases large : 2 ^ 63 < numSplits
  · by_cases last : numSplits = 2 ^ 64 - 1 ∧ v = Int64.minValue
    · rw [(remainder?_eq_none_iff v pos word).mpr last]
      have lowest : v.toInt = -2 ^ 63 := congrArg Int64.toInt last.2
      refine ⟨nofun, fun h => ?_⟩
      omega
    · have nonneg := Int.emod_nonneg v.toInt (b := numSplits) (by omega)
      have nonneg' := Int.emod_nonneg v.toInt (b := (2 ^ 64 - numSplits : Nat)) (by omega)
      have same := emod_folded_eq_iff least most large word
      rw [remainder?_of_word v pos word last, Nat.min_eq_right (by omega), Option.some_inj,
        or_iff_right (Nat.not_le.mpr large), ← same]
      omega
  · have whole : min numSplits (2 ^ 64 - numSplits) = numSplits := Nat.min_eq_left (by omega)
    rw [remainder?_of_word v pos word (fun last => by omega), whole]
    exact ⟨fun _ => .inl (Nat.le_of_not_lt large), fun _ => rfl⟩

/-- For every number of splits that a word can hold and whatever the hash: hashing gives every id
one of the splits. So does the remainder, but for the one id and the one number without a remainder, and
it is the Euclidean one exactly up to 2^63 splits, and beyond that for the small ids that are not
negative. -/
theorem splitOf?_of_word (hash : ByteHash) (id : TermId) (pos : 0 < numSplits)
    (word : numSplits < 2 ^ 64) :
    (∀ seed, ∃ split < numSplits, (hashingBy hash seed).splitOf? id numSplits = some split) ∧
    (∀ split, (moduloBy hash).splitOf? id numSplits = some split → split < numSplits) ∧
    ((moduloBy hash).splitOf? id numSplits = none ↔
      numSplits = 2 ^ 64 - 1 ∧ id = .int Int64.minValue) ∧
    ∀ v, id = .int v →
      ((moduloBy hash).splitOf? id numSplits = some (v.toInt % numSplits).toNat ↔
        numSplits ≤ 2 ^ 63 ∨ 0 ≤ v.toInt ∧ v.toInt + numSplits < 2 ^ 64) := by
  refine ⟨fun seed => splitOf?_hashingBy hash seed id pos, ?_⟩
  cases id with
  | int v =>
      rw [splitOf?_moduloBy_int]
      refine ⟨fun split h => lt_of_remainder? pos word h, ?_, ?_⟩
      · rw [remainder?_eq_none_iff v pos word, TermId.int.injEq]
      · rintro _ ⟨⟩
        exact remainder?_eq_emod_iff v pos word
  | bytes v =>
      obtain ⟨split, below, hashed⟩ := splitOf?_hashingBy hash 0 (.bytes v) pos
      rw [splitOf?_moduloBy_bytes, hashed]
      refine ⟨fun other h => Option.some_inj.mp h ▸ below, ?_, nofun⟩
      exact ⟨nofun, fun h => nomatch h.2⟩

/-- Out of the largest number of splits, the id 5 is not given the split 5, and the least id is
given none. -/
theorem splitOf?_of_word_last :
    0 < 18446744073709551615 ∧ 18446744073709551615 < 2 ^ 64 ∧
      (∃ split < 18446744073709551615,
        modulo.splitOf? (.int 5) 18446744073709551615 = some split ∧ split ≠ 5) ∧
      modulo.splitOf? (.int Int64.minValue) 18446744073709551615 = none := by
  have pos : 0 < 18446744073709551615 := by decide
  have word : 18446744073709551615 < 2 ^ 64 := by decide
  obtain ⟨_, below, undefined, remainder⟩ := splitOf?_of_word Xxh3.hash (.int 5) pos word
  obtain ⟨_, _, least, _⟩ := splitOf?_of_word Xxh3.hash (.int Int64.minValue) pos word
  refine ⟨pos, word, ?_, least.mpr ⟨by decide, rfl⟩⟩
  cases h : modulo.splitOf? (.int 5) 18446744073709551615 with
  | none => exact absurd (undefined.mp h).2 (by decide)
  | some split =>
      refine ⟨split, below split h, rfl, ?_⟩
      rintro rfl
      exact absurd ((remainder 5 rfl).mp h) (by decide)

end Partitioner

/-- Every id has a split. -/
theorem PartitionRule.exists_splitOf? (rule : PartitionRule) (id : TermId) {numSplits : Nat}
    (pos : 0 < numSplits) (word : numSplits < 2 ^ 63) :
    ∃ split, split < numSplits ∧ rule.partitioner.splitOf? id numSplits = some split := by
  cases rule with
  | hash => exact Partitioner.splitOf?_hashingBy Xxh3.hash 0 id pos
  | modulo =>
      cases id with
      | int v =>
          refine ⟨_, Partitioner.toNat_emod_lt v.toInt pos, ?_⟩
          rw [partitioner, Partitioner.modulo, Partitioner.splitOf?_moduloBy_int]
          exact (Partitioner.remainder?_eq_emod_iff v pos (by omega)).mpr
            (.inl (Nat.le_of_lt word))
      | bytes v => exact Partitioner.splitOf?_hashingBy Xxh3.hash 0 (.bytes v) pos

end TermStats
