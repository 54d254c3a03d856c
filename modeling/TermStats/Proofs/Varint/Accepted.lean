import Mathlib.Algebra.BigOperators.Group.Finset.Basic
import Mathlib.Algebra.BigOperators.Ring.Finset
import TermStats.Proofs.Varint.Shortest

/-!
Which bytes are read as a word, told from the bytes alone: those up to the first unmarked one, where
this is among the next ten and the payloads up to it add up to a word. Leading zeros do not matter.
All else is refused, and leaves the reader where it stands.
-/

namespace TermStats

namespace Varint

/-- The first byte with a clear high bit is the one at `i`. -/
structure EndsAt (bytes : Bytes) (i : Nat) : Prop where
  unmarked : ∃ b, bytes[i]? = some b ∧ b.toNat < 128
  marked : ∀ j < i, ∃ b, bytes[j]? = some b ∧ 128 ≤ b.toNat

/-- The seven low bits of the bytes up to the one at `i`, each at the weight of its place. -/
def payloadSum (bytes : Bytes) (i : Nat) : Nat :=
  ∑ j ∈ Finset.range (i + 1), (bytes.getD j 0).toNat % 128 * 2 ^ (7 * j)

/-- The bytes up to the one at `i` are a varint of some word. -/
structure Accepted (bytes : Bytes) (i : Nat) : Prop where
  short : i < maxLength
  ends : EndsAt bytes i
  fits : payloadSum bytes i < 2 ^ 64

variable {bytes taken : Bytes} {i n : Nat}

theorem payloadSum_zero (b : UInt8) (rest : Bytes) :
    payloadSum (b :: rest) 0 = b.toNat % 128 := by
  simp [payloadSum]

theorem payloadSum_succ (b : UInt8) (rest : Bytes) (i : Nat) :
    payloadSum (b :: rest) (i + 1) = b.toNat % 128 + 128 * payloadSum rest i := by
  have weights : ∀ j, (rest.getD j 0).toNat % 128 * 2 ^ (7 * (j + 1)) =
      128 * ((rest.getD j 0).toNat % 128 * 2 ^ (7 * j)) := by
    intro j
    rw [Nat.mul_succ, Nat.pow_add, Nat.mul_comm _ (2 ^ 7), Nat.mul_left_comm]
  rw [payloadSum, Finset.sum_range_succ', payloadSum, Finset.mul_sum, Nat.add_comm]
  simp only [List.getD_cons_zero, List.getD_cons_succ, weights, Nat.mul_zero, Nat.pow_zero,
    Nat.mul_one]

theorem endsAt_zero : EndsAt bytes 0 ↔ ∃ b rest, bytes = b :: rest ∧ b.toNat < 128 := by
  constructor
  · rintro ⟨⟨b, hb, small⟩, _⟩
    cases bytes with
    | nil => cases hb
    | cons _ rest =>
        cases hb
        exact ⟨b, rest, rfl, small⟩
  · rintro ⟨b, rest, rfl, small⟩
    exact ⟨⟨b, rfl, small⟩, nofun⟩

theorem endsAt_succ :
    EndsAt bytes (i + 1) ↔ ∃ b rest, bytes = b :: rest ∧ 128 ≤ b.toNat ∧ EndsAt rest i := by
  constructor
  · rintro ⟨unmarked, marked⟩
    obtain ⟨b, hb, large⟩ := marked 0 (Nat.succ_pos i)
    cases bytes with
    | nil => cases hb
    | cons _ rest =>
        cases hb
        refine ⟨b, rest, rfl, large, unmarked, ?_⟩
        intro j hj
        exact marked (j + 1) (Nat.succ_lt_succ hj)
  · rintro ⟨b, rest, rfl, large, unmarked, marked⟩
    refine ⟨unmarked, ?_⟩
    intro j hj
    cases j with
    | zero => exact ⟨b, rfl, large⟩
    | succ j => exact marked j (Nat.lt_of_succ_lt_succ hj)

theorem EndsAt.lt_length (ends : EndsAt bytes i) : i < bytes.length := by
  obtain ⟨b, hb, _⟩ := ends.unmarked
  exact (List.getElem?_eq_some_iff.mp hb).1

theorem EndsAt.digits (ends : EndsAt bytes i) :
    Digits (bytes.take (i + 1)) (payloadSum bytes i) := by
  induction i generalizing bytes with
  | zero =>
      obtain ⟨b, rest, rfl, small⟩ := endsAt_zero.mp ends
      rw [payloadSum_zero, Nat.mod_eq_of_lt small]
      exact .last small
  | succ i ih =>
      obtain ⟨b, rest, rfl, large, ends⟩ := endsAt_succ.mp ends
      rw [payloadSum_succ]
      exact .continued large (ih ends)

theorem Digits.endsAt (digits : Digits taken n) (rest : Bytes) :
    ∃ i, taken.length = i + 1 ∧ EndsAt (taken ++ rest) i ∧ payloadSum (taken ++ rest) i = n := by
  induction digits with
  | @last b small =>
      refine ⟨0, rfl, endsAt_zero.mpr ⟨b, rest, rfl, small⟩, ?_⟩
      exact (payloadSum_zero b rest).trans (Nat.mod_eq_of_lt small)
  | @continued b more m large _ ih =>
      obtain ⟨i, length, ends, value⟩ := ih
      refine ⟨i + 1, congrArg Nat.succ length, endsAt_succ.mpr ⟨b, _, rfl, large, ends⟩, ?_⟩
      rw [List.cons_append, payloadSum_succ, value]

end Varint

namespace Reader

open Varint

/-- A read of a word by a caller that keeps the reader: what it gives, and the reader afterwards. -/
def callU64 (r : Reader) : Except ReadFault UInt64 × Reader :=
  match r.readU64 with
  | .ok (v, r') => (.ok v, r')
  | .error f => (.error f, r)

/-- The reader after some reads, of which any may have failed. -/
def afterReads : (reads : Nat) → Reader → Reader
  | 0, r => r
  | reads + 1, r => afterReads reads r.callU64.2

variable {data : Bytes} {pos : Nat} {r r' : Reader} {v : UInt64}

theorem atOffset_iff :
    atOffset data pos = .ok r ↔ pos ≤ data.length ∧ r = ⟨pos, data.drop pos⟩ := by
  simp only [atOffset]
  constructor
  · intro h
    split at h
    · cases h
    · rename_i inside
      cases h
      exact ⟨Nat.le_of_not_lt inside, rfl⟩
  · rintro ⟨inside, rfl⟩
    exact if_neg (Nat.not_lt.mpr inside)

theorem readU64_ok_iff : r.readU64 = .ok (v, r') ↔ ∃ i, Accepted r.rest i ∧
    v.toNat = payloadSum r.rest i ∧ r' = ⟨r.pos + (i + 1), r.rest.drop (i + 1)⟩ := by
  constructor
  · intro h
    obtain ⟨taken, rest, same, ⟨short, digits⟩, rfl⟩ := readU64_iff.mp h
    obtain ⟨i, length, ends, value⟩ := digits.endsAt rest
    have fits := v.toNat_lt
    rw [← value] at fits
    rw [length] at short
    rw [same]
    refine ⟨i, ⟨short, ends, fits⟩, value.symm, ?_⟩
    rw [← length, List.drop_left]
  · rintro ⟨i, ⟨short, ends, _⟩, value, rfl⟩
    have length : (r.rest.take (i + 1)).length = i + 1 := List.length_take_of_le ends.lt_length
    have digits := ends.digits
    rw [← value] at digits
    apply readU64_iff.mpr
    refine ⟨_, _, (List.take_append_drop (i + 1) r.rest).symm, ⟨?_, digits⟩, ?_⟩
    · rw [length]
      exact short
    · rw [length]

theorem callU64_ok_iff : r.callU64 = (.ok v, r') ↔ r.readU64 = .ok (v, r') := by
  simp only [callU64]
  split
  · rename_i h
    simp [h]
  · rename_i h
    simp [h]

theorem callU64_of_accepted {i : Nat} (accepted : Accepted r.rest i) :
    ∃ v, v.toNat = payloadSum r.rest i ∧
      r.callU64 = (.ok v, ⟨r.pos + (i + 1), r.rest.drop (i + 1)⟩) := by
  have value := UInt64.toNat_ofNat_of_lt' accepted.fits
  exact ⟨_, value, callU64_ok_iff.mpr (readU64_ok_iff.mpr ⟨i, accepted, value, rfl⟩)⟩

theorem callU64_of_not_accepted (refused : ∀ i, ¬ Accepted r.rest i) :
    ∃ f, r.callU64 = (.error f, r) := by
  cases h : r.readU64 with
  | error f => exact ⟨f, by rw [callU64, h]⟩
  | ok read =>
      obtain ⟨i, accepted, _⟩ := readU64_ok_iff.mp h
      exact absurd accepted (refused i)

/-- A read leaves a reader that could have been placed there. -/
theorem placed_callU64 (placed : atOffset data r.pos = .ok r) :
    atOffset data r.callU64.2.pos = .ok r.callU64.2 := by
  obtain ⟨inside, same⟩ := atOffset_iff.mp placed
  have rest : r.rest = data.drop r.pos := congrArg Reader.rest same
  by_cases accepted : ∃ i, Accepted r.rest i
  · obtain ⟨i, accepted⟩ := accepted
    obtain ⟨v, _, h⟩ := callU64_of_accepted accepted
    have enough := accepted.ends.lt_length
    rw [rest, List.length_drop] at enough
    rw [h, rest, List.drop_drop]
    exact atOffset_iff.mpr ⟨by simp only; omega, rfl⟩
  · obtain ⟨f, h⟩ := callU64_of_not_accepted (not_exists.mp accepted)
    rw [h]
    exact placed

theorem placed_afterReads (placed : atOffset data r.pos = .ok r) (reads : Nat) :
    atOffset data (afterReads reads r).pos = .ok (afterReads reads r) := by
  induction reads generalizing r with
  | zero => exact placed
  | succ reads ih => exact ih (placed_callU64 placed)

theorem callU64_encode (v : UInt64) :
    callU64 (.ofBytes (encode v)) = (.ok v, ⟨(encode v).length, []⟩) := by
  have read := readU64_encode v 0 []
  rw [List.append_nil, Nat.zero_add] at read
  exact callU64_ok_iff.mpr read

theorem eq_encode_or_longer_of_callU64 {bytes : Bytes} (h : (callU64 (.ofBytes bytes)).1 = .ok v) :
    bytes = encode v ∨ (encode v).length < bytes.length := by
  have read : callU64 (.ofBytes bytes) = (.ok v, (callU64 (.ofBytes bytes)).2) := Prod.ext h rfl
  obtain ⟨taken, rest, same, varint, _⟩ := readU64_iff.mp (callU64_ok_iff.mp read)
  subst same
  have shortest := varint.eq_encode_or_longer
  cases rest with
  | nil => simpa only [List.append_nil] using shortest
  | cons b rest =>
      have := varint.length_encode_le
      refine .inr ?_
      simp only [List.length_append, List.length_cons]
      omega

/-- A reader can be placed anywhere in the data. A read from there succeeds exactly if the first
unmarked byte is among the next ten and the payloads up to it add up to a word. It gives their sum,
whole, and leaves the reader behind that byte, still within the data. Any other read reports
malformed data and leaves the reader as it was; no reads, failed or not, bring it out of the data.
Of all bytes from which a word is read, those that are written for it are the only shortest. -/
theorem accepts_exactly_words (inside : pos ≤ data.length) :
    ∃ r, atOffset data pos = .ok r ∧
      ((∃ v, r.callU64.1 = .ok v) ↔ ∃ i, Accepted (data.drop pos) i) ∧
      (∀ i, Accepted (data.drop pos) i → ∃ v r', r.callU64 = (.ok v, r') ∧
        v.toNat = payloadSum (data.drop pos) i ∧ r'.pos = pos + (i + 1) ∧
        r'.pos ≤ data.length ∧ atOffset data r'.pos = .ok r') ∧
      ((∀ i, ¬ Accepted (data.drop pos) i) → ∃ f, r.callU64 = (.error f, r) ∧
        ∀ element, f.toError element = .invalidFormat element f.message) ∧
      (∀ reads, (afterReads reads r).pos ≤ data.length ∧
        atOffset data (afterReads reads r).pos = .ok (afterReads reads r)) ∧
      ∀ v, callU64 (.ofBytes (encode v)) = (.ok v, ⟨(encode v).length, []⟩) ∧
        ∀ bytes, (callU64 (.ofBytes bytes)).1 = .ok v →
          bytes = encode v ∨ (encode v).length < bytes.length := by
  obtain ⟨r, placed⟩ : ∃ r, atOffset data pos = .ok r := ⟨_, atOffset_iff.mpr ⟨inside, rfl⟩⟩
  obtain rfl : r.pos = pos := (atOffset_eq_ok placed).1
  have rest : r.rest = data.drop r.pos := congrArg Reader.rest (atOffset_iff.mp placed).2
  refine ⟨r, placed, ?_⟩
  rw [← rest]
  refine ⟨⟨?_, ?_⟩, ?_, ?_, ?_, ?_⟩
  · rintro ⟨v, h⟩
    by_contra refused
    obtain ⟨f, h'⟩ := callU64_of_not_accepted (not_exists.mp refused)
    rw [h'] at h
    cases h
  · rintro ⟨i, accepted⟩
    obtain ⟨v, _, h⟩ := callU64_of_accepted accepted
    exact ⟨v, congrArg Prod.fst h⟩
  · intro i accepted
    obtain ⟨v, value, h⟩ := callU64_of_accepted accepted
    have behind := placed_callU64 placed
    rw [h] at behind
    exact ⟨v, _, h, value, rfl, (atOffset_iff.mp behind).1, behind⟩
  · intro refused
    obtain ⟨f, h⟩ := callU64_of_not_accepted refused
    exact ⟨f, h, fun _ => rfl⟩
  · intro reads
    have still := placed_afterReads placed reads
    exact ⟨(atOffset_iff.mp still).1, still⟩
  · intro v
    exact ⟨callU64_encode v, fun _ h => eq_encode_or_longer_of_callU64 h⟩

/-- The largest word takes all ten bytes, behind a byte of its own and before another. -/
theorem accepts_exactly_words_largest : ∃ data : Bytes,
    data = 9 :: List.replicate 9 255 ++ [1, 7] ∧ 1 ≤ data.length ∧
      ∃ r r', atOffset data 1 = .ok r ∧ r.callU64 = (.ok 18446744073709551615, r') ∧
        atOffset data 11 = .ok r' := by
  have inside : 1 ≤ (9 :: List.replicate 9 255 ++ [1, 7] : Bytes).length := by decide
  obtain ⟨r, placed, -, reads, -⟩ := accepts_exactly_words inside
  have ends : EndsAt (List.replicate 9 255 ++ [1, 7]) 9 := by
    refine ⟨⟨1, rfl, by decide⟩, ?_⟩
    intro j hj
    refine ⟨255, ?_, by decide⟩
    rw [List.getElem?_append_left (by simpa using hj), List.getElem?_replicate_of_lt hj]
  have fits : payloadSum (List.replicate 9 255 ++ [1, 7]) 9 = 18446744073709551615 := by decide
  have accepted : Accepted (List.replicate 9 255 ++ [1, 7]) 9 :=
    ⟨by decide, ends, by rw [fits]; decide⟩
  obtain ⟨v, r', h, value, place, -, behind⟩ := reads 9 accepted
  have largest : v = 18446744073709551615 := UInt64.toNat_inj.mp (value.trans fits)
  rw [largest] at h
  rw [place] at behind
  exact ⟨_, rfl, inside, r, r', placed, h, behind⟩

end Reader
end TermStats
