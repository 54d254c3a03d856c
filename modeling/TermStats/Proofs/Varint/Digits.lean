import Mathlib.Algebra.Group.Int.Defs
import Mathlib.Algebra.GroupWithZero.Nat
import TermStats.Varint.Reader

/-!
Which bytes are a varint: digits in base 128, of which all but the last are marked as continued, at
most ten of them, and with a value that is a word. Decoding takes exactly these from the front of
its input, whatever comes after them.
-/

namespace TermStats

namespace Varint

/-- The digits of a number, the least significant first. The number may have leading zeros. -/
inductive Digits : Bytes → Nat → Prop where
  | last {b : UInt8} (unmarked : b.toNat < 128) : Digits [b] b.toNat
  | continued {b : UInt8} {rest : Bytes} {n : Nat} (marked : 128 ≤ b.toNat) :
      Digits rest n → Digits (b :: rest) (b.toNat % 128 + 128 * n)

/-- A varint of a value. -/
structure IsVarint (bytes : Bytes) (v : UInt64) : Prop where
  short : bytes.length ≤ maxLength
  digits : Digits bytes v.toNat

theorem Digits.length_pos {bytes : Bytes} {n : Nat} (h : Digits bytes n) : 0 < bytes.length := by
  cases h <;> exact Nat.succ_pos _

/-- What decoding takes. The last digit that it allows is 0 or 1, which bounds the number. -/
theorem digits_of_decodeDigits {left n : Nat} {bytes rest : Bytes}
    (h : decodeDigits (left + 1) bytes = .ok (n, rest)) :
    ∃ taken, bytes = taken ++ rest ∧ taken.length ≤ left + 1 ∧ Digits taken n ∧
      n < 2 ^ (7 * left + 1) := by
  induction left generalizing n bytes with
  | zero =>
      cases bytes with
      | nil => cases h
      | cons b bs =>
          simp only [decodeDigits] at h
          split at h
          · cases h
          · rename_i small
            split at h
            · rename_i unmarked
              cases h
              have bit : ¬ 1 < b.toNat % 128 := fun large => small ⟨trivial, large⟩
              exact ⟨[b], rfl, Nat.le_refl _, .last unmarked, by omega⟩
            · cases h
  | succ left ih =>
      cases bytes with
      | nil => cases h
      | cons b bs =>
          rw [decodeDigits, if_neg fun h => absurd h.1 (Nat.succ_ne_zero left)] at h
          split at h
          · rename_i unmarked
            cases h
            refine ⟨[b], rfl, Nat.succ_le_succ (Nat.zero_le _), .last unmarked, ?_⟩
            have weight : 2 ^ 7 ≤ 2 ^ (7 * (left + 1) + 1) :=
              Nat.pow_le_pow_right (by decide) (by omega)
            omega
          · rename_i marked
            split at h
            · cases h
            · rename_i m rest' hd
              cases h
              obtain ⟨taken, rfl, short, digits, bound⟩ := ih hd
              refine ⟨b :: taken, rfl, Nat.succ_le_succ short,
                .continued (Nat.le_of_not_lt marked) digits, ?_⟩
              have more : 2 ^ (7 * (left + 1) + 1) = 2 ^ (7 * left + 1) * 128 := by
                rw [show 7 * (left + 1) + 1 = 7 * left + 1 + 7 by omega, Nat.pow_add]
              omega

theorem decodeDigits_of_digits {left n : Nat} {taken : Bytes} (digits : Digits taken n)
    (short : taken.length ≤ left + 1) (bound : n < 2 ^ (7 * left + 1)) (rest : Bytes) :
    decodeDigits (left + 1) (taken ++ rest) = .ok (n, rest) := by
  induction digits generalizing left with
  | @last b unmarked =>
      have allowed : ¬ (left = 0 ∧ 1 < b.toNat % 128) := by
        rintro ⟨rfl, large⟩
        omega
      rw [List.cons_append, decodeDigits, if_neg allowed, if_pos unmarked, List.nil_append]
  | @continued b more m marked digits ih =>
      cases left with
      | zero =>
          have := digits.length_pos
          simp only [List.length_cons] at short
          omega
      | succ left =>
          have weight : 2 ^ (7 * (left + 1) + 1) = 2 ^ (7 * left + 1) * 128 := by
            rw [show 7 * (left + 1) + 1 = 7 * left + 1 + 7 by omega, Nat.pow_add]
          have others := ih (Nat.le_of_succ_le_succ short) (by omega)
          rw [List.cons_append, decodeDigits, if_neg fun h => absurd h.1 (Nat.succ_ne_zero left),
            if_neg (Nat.not_lt.mpr marked), others]

/-- Decoding takes a varint and leaves what comes after it. -/
theorem decode_iff {bytes rest : Bytes} {v : UInt64} :
    decode bytes = .ok (v, rest) ↔ ∃ taken, bytes = taken ++ rest ∧ IsVarint taken v := by
  refine ⟨fun h => ?_, ?_⟩
  · simp only [decode] at h
    split at h
    · cases h
    · rename_i n rest' hd
      cases h
      obtain ⟨taken, rfl, short, digits, bound⟩ := digits_of_decodeDigits hd
      refine ⟨taken, rfl, short, ?_⟩
      rwa [UInt64.toNat_ofNat_of_lt' bound]
  · rintro ⟨taken, rfl, short, digits⟩
    have value : v.toNat.toUInt64 = v := UInt64.ofNat_toNat
    simp only [decode, maxLength, decodeDigits_of_digits digits short v.toNat_lt rest, value]

theorem IsVarint.length_pos {bytes : Bytes} {v : UInt64} (h : IsVarint bytes v) :
    0 < bytes.length :=
  h.digits.length_pos

end Varint

namespace Reader

open Varint

theorem readU64_iff {pos : Nat} {bytes : Bytes} {v : UInt64} {r : Reader} :
    (⟨pos, bytes⟩ : Reader).readU64 = .ok (v, r) ↔
      ∃ taken rest, bytes = taken ++ rest ∧ IsVarint taken v ∧ r = ⟨pos + taken.length, rest⟩ := by
  simp only [readU64]
  refine ⟨fun h => ?_, ?_⟩
  · split at h
    · cases h
    · rename_i rest hd
      cases h
      obtain ⟨taken, rfl, hv⟩ := decode_iff.mp hd
      exact ⟨taken, rest, rfl, hv, by simp⟩
  · rintro ⟨taken, rest, rfl, hv, rfl⟩
    simp [decode_iff.mpr ⟨taken, rfl, hv⟩]

theorem readInt_iff {pos : Nat} {bytes : Bytes} {v : Int64} {r : Reader} :
    (⟨pos, bytes⟩ : Reader).readInt = .ok (v, r) ↔ ∃ taken rest, bytes = taken ++ rest ∧
      IsVarint taken v.toUInt64 ∧ r = ⟨pos + taken.length, rest⟩ := by
  simp only [readInt]
  refine ⟨fun h => ?_, ?_⟩
  · split at h
    · cases h
    · rename_i word hd
      cases h
      exact readU64_iff.mp hd
  · intro h
    simp only [readU64_iff.mpr h]
    rfl

theorem readBytes_iff {pos count : Nat} {bytes taken : Bytes} {r : Reader} :
    (⟨pos, bytes⟩ : Reader).readBytes count = .ok (taken, r) ↔
      taken.length = count ∧ ∃ rest, bytes = taken ++ rest ∧ r = ⟨pos + count, rest⟩ := by
  simp only [readBytes]
  refine ⟨fun h => ?_, ?_⟩
  · split at h
    · cases h
    · rename_i enough
      cases h
      exact ⟨List.length_take_of_le (Nat.le_of_not_lt enough), _,
        (List.take_append_drop count bytes).symm, rfl⟩
  · rintro ⟨rfl, rest, rfl, rfl⟩
    have enough : ¬ (taken ++ rest).length < taken.length := by simp
    rw [if_neg enough, List.take_left, List.drop_left]

end Reader
end TermStats
