import TermStats.Proofs.Varint.Digits

/-!
Reading what was written, whatever follows it: varints of both kinds come back, and the reader
stands behind them.
-/

namespace TermStats

namespace Varint

theorem toNat_toUInt8 {n : Nat} (h : n < 256) : n.toUInt8.toNat = n :=
  UInt8.toNat_ofNat_of_lt' h

theorem digits_encodeNat (n : Nat) : Digits (encodeNat n) n := by
  induction n using encodeNat.induct with
  | case1 n small =>
      have byte := toNat_toUInt8 (show n < 256 by omega)
      have digits : Digits [n.toUInt8] n.toUInt8.toNat := .last (by omega)
      rw [encodeNat, if_pos small]
      rwa [byte] at digits
  | case2 n large ih =>
      have byte := toNat_toUInt8 (show n % 128 + 128 < 256 by omega)
      have digits : Digits ((n % 128 + 128).toUInt8 :: encodeNat (n / 128))
          ((n % 128 + 128).toUInt8.toNat % 128 + 128 * (n / 128)) := .continued (by omega) ih
      have value : (n % 128 + 128) % 128 + 128 * (n / 128) = n := by omega
      rw [encodeNat, if_neg large]
      rwa [byte, value] at digits

/-- The digits of a number below 2^(7k + 1) fit in k + 1 bytes. -/
theorem length_encodeNat_le {left n : Nat} (h : n < 2 ^ (7 * left + 1)) :
    (encodeNat n).length ≤ left + 1 := by
  induction left generalizing n with
  | zero =>
      have small : n < 128 := Nat.lt_trans h (by decide)
      rw [encodeNat, if_pos small]
      exact Nat.le_refl _
  | succ left ih =>
      rw [encodeNat]
      split
      · exact Nat.succ_le_succ (Nat.zero_le _)
      · have fewer : n / 128 < 2 ^ (7 * left + 1) := by
          rw [Nat.div_lt_iff_lt_mul (by decide)]
          rw [show 7 * (left + 1) + 1 = 7 * left + 1 + 7 by omega, Nat.pow_add] at h
          exact h
        exact Nat.succ_le_succ (ih fewer)

/-- What is written for a word is a varint of it. -/
theorem isVarint_encodeNat {n : Nat} (h : n < 2 ^ 64) : IsVarint (encodeNat n) n.toUInt64 := by
  have value : n.toUInt64.toNat = n := UInt64.toNat_ofNat_of_lt' h
  refine ⟨length_encodeNat_le h, ?_⟩
  rw [value]
  exact digits_encodeNat n

theorem isVarint_encode (v : UInt64) : IsVarint (encode v) v := by
  have written := isVarint_encodeNat v.toNat_lt
  rwa [show v.toNat.toUInt64 = v from UInt64.ofNat_toNat] at written

theorem sshiftRight_all (x : BitVec 64) :
    x.sshiftRight 63 = if x.msb then BitVec.allOnes 64 else 0 := by
  cases hm : x.msb with
  | false =>
      have small := BitVec.toNat_lt_of_msb_false hm
      rw [BitVec.sshiftRight_eq_of_msb_false hm]
      apply BitVec.eq_of_toNat_eq
      simp [Nat.shiftRight_eq_div_pow]
      omega
  | true =>
      have large := BitVec.le_toNat_of_msb_true hm
      have cleared : (~~~x) >>> 63 = 0 := by
        apply BitVec.eq_of_toNat_eq
        simp [Nat.shiftRight_eq_div_pow]
        omega
      rw [BitVec.sshiftRight_eq_of_msb_true hm, cleared]
      rfl

/-- The lowest bit of a zigzag word is the sign; the others are those of the value, flipped where it
is negative. -/
theorem unzigzag_zigzag (v : Int64) : unzigzag (zigzag v) = v := by
  apply Int64.toBitVec_inj.mp
  change (v.toBitVec <<< 1 ^^^ v.toBitVec.sshiftRight 63) >>> 1 ^^^
    -((v.toBitVec <<< 1 ^^^ v.toBitVec.sshiftRight 63) &&& 1#64) = v.toBitVec
  rw [sshiftRight_all]
  generalize v.toBitVec = x
  cases hm : x.msb with
  | false =>
      have small := BitVec.toNat_lt_of_msb_false hm
      have low : x <<< 1 &&& 1#64 = 0#64 := by
        ext i hi
        cases i <;> simp
      have high : x <<< 1 >>> 1 = x := by
        apply BitVec.eq_of_toNat_eq
        simp [Nat.shiftRight_eq_div_pow, Nat.shiftLeft_eq]
        omega
      simp [low, high]
  | true =>
      have large := BitVec.le_toNat_of_msb_true hm
      have low : ~~~(x <<< 1) &&& 1#64 = 1#64 := by
        ext i hi
        cases i <;> simp
      have high : ~~~(x <<< 1) >>> 1 = ~~~x := by
        apply BitVec.eq_of_toNat_eq
        simp [Nat.shiftRight_eq_div_pow, Nat.shiftLeft_eq]
        omega
      have flips : x <<< 1 ^^^ BitVec.allOnes 64 = ~~~(x <<< 1) := BitVec.xor_allOnes
      rw [if_pos rfl, flips, low, high, BitVec.neg_one_eq_allOnes, BitVec.xor_allOnes,
        BitVec.not_not]

theorem msb_ushiftRight_one (x : BitVec 64) : (x >>> 1).msb = false := by
  have half : (x >>> 1).toNat = x.toNat / 2 := by simp [Nat.shiftRight_eq_div_pow]
  rw [BitVec.msb_eq_false_iff_two_mul_lt, half]
  omega

/-- Every word is the zigzag form of some value. Its lowest bit says whether the others are flipped
in this value, and so is the sign of it. -/
theorem zigzag_unzigzag (w : UInt64) : zigzag (unzigzag w) = w := by
  apply UInt64.toBitVec_inj.mp
  change ((w.toBitVec >>> 1 ^^^ -(w.toBitVec &&& 1#64)) <<< 1 ^^^
    (w.toBitVec >>> 1 ^^^ -(w.toBitVec &&& 1#64)).sshiftRight 63) = w.toBitVec
  rw [sshiftRight_all]
  generalize w.toBitVec = x
  have positive := msb_ushiftRight_one x
  rcases Nat.mod_two_eq_zero_or_one x.toNat with even | odd
  · have low : x &&& 1#64 = 0#64 := by
      apply BitVec.eq_of_toNat_eq
      simp [even]
    have shifted : x >>> 1 <<< 1 = x := by
      apply BitVec.eq_of_toNat_eq
      simp [Nat.shiftRight_eq_div_pow, Nat.shiftLeft_eq]
      omega
    simp [low, positive, shifted]
  · have low : x &&& 1#64 = 1#64 := by
      apply BitVec.eq_of_toNat_eq
      simp [odd]
    have negative : (~~~(x >>> 1)).msb = true := by simp [positive]
    have shifted : ~~~(~~~(x >>> 1) <<< 1) = x := by
      apply BitVec.eq_of_toNat_eq
      simp [Nat.shiftRight_eq_div_pow, Nat.shiftLeft_eq]
      omega
    rw [low, BitVec.neg_one_eq_allOnes, BitVec.xor_allOnes, negative, if_pos rfl,
      BitVec.xor_allOnes, shifted]

end Varint

namespace Reader

theorem readU64_encodeNat {n : Nat} (h : n < 2 ^ 64) (pos : Nat) (rest : Bytes) :
    (⟨pos, Varint.encodeNat n ++ rest⟩ : Reader).readU64 =
      .ok (n.toUInt64, ⟨pos + (Varint.encodeNat n).length, rest⟩) :=
  readU64_iff.mpr ⟨_, rest, rfl, Varint.isVarint_encodeNat h, rfl⟩

theorem readU64_encode (v : UInt64) (pos : Nat) (rest : Bytes) :
    (⟨pos, Varint.encode v ++ rest⟩ : Reader).readU64 =
      .ok (v, ⟨pos + (Varint.encode v).length, rest⟩) :=
  readU64_iff.mpr ⟨_, rest, rfl, Varint.isVarint_encode v, rfl⟩

theorem readInt_encodeInt (v : Int64) (pos : Nat) (rest : Bytes) :
    (⟨pos, Varint.encodeInt v ++ rest⟩ : Reader).readInt =
      .ok (v, ⟨pos + (Varint.encodeInt v).length, rest⟩) :=
  readInt_iff.mpr ⟨_, rest, rfl, Varint.isVarint_encode v.toUInt64, rfl⟩

theorem readZigzag_encodeZigzag (v : Int64) (pos : Nat) (rest : Bytes) :
    (⟨pos, Varint.encodeZigzag v ++ rest⟩ : Reader).readZigzag =
      .ok (v, ⟨pos + (Varint.encodeZigzag v).length, rest⟩) := by
  simp only [readZigzag, Varint.encodeZigzag, readU64_encode, Varint.unzigzag_zigzag]

theorem readByte_cons (b : UInt8) (pos : Nat) (rest : Bytes) :
    (⟨pos, b :: rest⟩ : Reader).readByte = .ok (b, ⟨pos + 1, rest⟩) := rfl

theorem readBytes_append (bytes : Bytes) (pos : Nat) (rest : Bytes) :
    (⟨pos, bytes ++ rest⟩ : Reader).readBytes bytes.length =
      .ok (bytes, ⟨pos + bytes.length, rest⟩) :=
  readBytes_iff.mpr ⟨rfl, rest, rfl, rfl⟩

theorem atOffset_append (before after : Bytes) :
    atOffset (before ++ after) before.length = .ok ⟨before.length, after⟩ := by
  have within : ¬ (before ++ after).length < before.length := by simp
  rw [atOffset, if_neg within, List.drop_left]

end Reader
end TermStats
