import Mathlib.Data.Nat.Log
import TermStats.Proofs.Varint.RoundTrip

/-!
The length of varints. What is written for a value is the only shortest of its varints, and a
smaller value is never longer. The length can be told from the highest bit of the value.
-/

namespace TermStats.Varint

theorem length_encodeNat_of_lt {n : Nat} (small : n < 128) : (encodeNat n).length = 1 := by
  rw [encodeNat, if_pos small]
  rfl

theorem length_encodeNat_of_ge {n : Nat} (large : ¬ n < 128) :
    (encodeNat n).length = (encodeNat (n / 128)).length + 1 := by
  rw [encodeNat, if_neg large]
  rfl

theorem log2_or_one (n : Nat) : (n ||| 1).log2 = n.log2 := by
  cases n with
  | zero => rfl
  | succ n =>
      have nonzero : n + 1 ≠ 0 := Nat.succ_ne_zero n
      have larger : n + 1 ≤ n + 1 ||| 1 := Nat.left_le_or
      apply (Nat.log2_eq_iff (by omega)).mpr
      constructor
      · exact Nat.le_trans (Nat.log2_self_le nonzero) larger
      · exact Nat.or_lt_two_pow Nat.lt_log2_self (Nat.one_lt_two_pow (Nat.succ_ne_zero _))

/-- A number has one digit for each started group of seven bits. -/
theorem length_encodeNat (n : Nat) : (encodeNat n).length = n.log2 / 7 + 1 := by
  induction n using encodeNat.induct with
  | case1 n small =>
      have few : n.log2 < 7 := by
        by_cases zero : n = 0
        · subst zero
          decide
        · exact (Nat.log2_lt zero).mpr small
      rw [length_encodeNat_of_lt small, Nat.div_eq_of_lt few]
  | case2 n large ih =>
      have many : 7 ≤ n.log2 := (Nat.le_log2 (by omega)).mpr (Nat.le_of_not_lt large)
      have others : (n / 128).log2 = n.log2 - 7 := by
        simpa only [Nat.log2_eq_log_two] using Nat.log_div_base_pow 2 n 7
      rw [length_encodeNat_of_ge large, ih, others]
      omega

theorem length_encode (v : UInt64) : (encode v).length = encodedLength v := by
  have bits : (v ||| 1).toNat.log2 = v.toNat.log2 := log2_or_one v.toNat
  rw [encode, length_encodeNat, encodedLength, bits]
  omega

theorem length_encodeNat_pos (n : Nat) : 0 < (encodeNat n).length :=
  (digits_encodeNat n).length_pos

/-- A smaller number has no more digits. -/
theorem length_encodeNat_mono {m n : Nat} (h : m ≤ n) :
    (encodeNat m).length ≤ (encodeNat n).length := by
  induction n using encodeNat.induct generalizing m with
  | case1 n small =>
      have one := length_encodeNat_of_lt (Nat.lt_of_le_of_lt h small)
      exact Nat.le_of_eq (one.trans (length_encodeNat_of_lt small).symm)
  | case2 n large ih =>
      by_cases small : m < 128
      · rw [length_encodeNat_of_lt small]
        exact length_encodeNat_pos n
      · rw [length_encodeNat_of_ge small, length_encodeNat_of_ge large]
        exact Nat.succ_le_succ (ih (Nat.div_le_div_right h))

/-- Leading zeros only make the digits of a number longer. -/
theorem Digits.length_encodeNat_le {bytes : Bytes} {n : Nat} (h : Digits bytes n) :
    (encodeNat n).length ≤ bytes.length := by
  induction h with
  | last unmarked =>
      rw [length_encodeNat_of_lt unmarked]
      exact Nat.le_refl _
  | @continued b rest n marked _ ih =>
      by_cases small : b.toNat % 128 + 128 * n < 128
      · rw [length_encodeNat_of_lt small]
        exact Nat.succ_pos _
      · have shifted : (b.toNat % 128 + 128 * n) / 128 = n := by omega
        rw [length_encodeNat_of_ge small, shifted]
        exact Nat.succ_le_succ ih

/-- Numbers are read off their digits from the first on, so digits of one length and one number are
the same. -/
theorem Digits.eq_of_length_eq {a b : Bytes} {m n : Nat} (ha : Digits a m) (hb : Digits b n)
    (value : m = n) (same : a.length = b.length) : a = b := by
  induction ha generalizing b n with
  | @last x _ =>
      cases hb with
      | @last y _ => rw [UInt8.toNat_inj.mp value]
      | continued _ more =>
          have := more.length_pos
          simp only [List.length_cons, List.length_nil] at same
          omega
  | @continued x rest m marked more ih =>
      have := more.length_pos
      cases hb with
      | last _ =>
          simp only [List.length_cons, List.length_nil] at same
          omega
      | @continued y rest' n marked' more' =>
          have byte : x = y := by
            apply UInt8.toNat_inj.mp
            have := x.toNat_lt
            have := y.toNat_lt
            omega
          have others : rest = rest' := by
            apply ih more'
            · omega
            · exact Nat.succ.inj same
          rw [byte, others]

theorem IsVarint.length_encode_le {bytes : Bytes} {v : UInt64} (h : IsVarint bytes v) :
    (encode v).length ≤ bytes.length :=
  h.digits.length_encodeNat_le

/-- Every other varint of a value is longer than the one that is written. -/
theorem IsVarint.eq_encode_or_longer {bytes : Bytes} {v : UInt64} (h : IsVarint bytes v) :
    bytes = encode v ∨ (encode v).length < bytes.length := by
  by_cases same : bytes.length = (encode v).length
  · exact .inl (h.digits.eq_of_length_eq (isVarint_encode v).digits rfl same)
  · exact .inr (Nat.lt_of_le_of_ne h.length_encode_le (Ne.symm same))

end TermStats.Varint
