import TermStats.Proofs.Varint.Shortest

/-!
Varints one after another. What is written for a list of words is read back word by word, whatever
follows it, and each read takes as many bytes as its word was given. A signed value comes back in
both of its forms.
-/

namespace TermStats

namespace Varint

theorem one_le_encodedLength (v : UInt64) : 1 ≤ encodedLength v := by
  rw [← length_encode]
  exact (isVarint_encode v).length_pos

theorem encodedLength_le (v : UInt64) : encodedLength v ≤ maxLength := by
  rw [← length_encode]
  exact (isVarint_encode v).short

end Varint

namespace Reader

open Varint

/-- Reads as many words, one after another, each with the number of bytes that it takes. -/
def readWords : (count : Nat) → Reader → Except ReadFault (List (UInt64 × Nat) × Reader)
  | 0, r => .ok ([], r)
  | count + 1, r => do
      let (v, r') ← r.readU64
      let (words, last) ← readWords count r'
      return ((v, r'.pos - r.pos) :: words, last)

theorem readWords_encode (values : List UInt64) (pos : Nat) (suffix : Bytes) :
    readWords values.length ⟨pos, values.flatMap encode ++ suffix⟩ =
      .ok (values.map fun v => (v, encodedLength v),
        ⟨pos + (values.map encodedLength).sum, suffix⟩) := by
  induction values generalizing pos with
  | nil => rfl
  | cons v values ih =>
      have others := ih (pos + encodedLength v)
      simp only [List.length_cons, List.flatMap_cons, List.append_assoc, readWords, readU64_encode,
        length_encode, bind, Except.bind, others, pure, Except.pure, List.map_cons, List.sum_cons,
        Nat.add_sub_cancel_left, Nat.add_assoc]

/-- Words that are written one after another are read back, and nothing of what follows them is
taken. Each takes as many bytes as its highest bit tells, from one to ten. Signed values come back
as well, zigzag-encoded or by their two's-complement bits; zigzag-encoding pairs them with the
words, one to one. -/
theorem varints_read_back :
    (∀ (values : List UInt64) (suffix : Bytes),
      readWords values.length (.ofBytes (values.flatMap encode ++ suffix)) =
        .ok (values.map fun v => (v, encodedLength v),
          ⟨(values.map encodedLength).sum, suffix⟩)) ∧
    (∀ v, (encode v).length = encodedLength v ∧ 1 ≤ encodedLength v ∧ encodedLength v ≤ 10) ∧
    (∀ (x : Int64) (suffix : Bytes),
      readZigzag (.ofBytes (encodeZigzag x ++ suffix)) =
        .ok (x, ⟨(encodeZigzag x).length, suffix⟩) ∧
      readInt (.ofBytes (encodeInt x ++ suffix)) = .ok (x, ⟨(encodeInt x).length, suffix⟩)) ∧
    (Function.Bijective zigzag ∧ Function.Bijective unzigzag) ∧
    Function.LeftInverse unzigzag zigzag ∧ Function.RightInverse unzigzag zigzag := by
  refine ⟨?_, ?_, ?_, ⟨?_, ?_⟩, unzigzag_zigzag, zigzag_unzigzag⟩
  · intro values suffix
    have words := readWords_encode values 0 suffix
    rw [Nat.zero_add] at words
    exact words
  · intro v
    exact ⟨length_encode v, one_le_encodedLength v, encodedLength_le v⟩
  · intro x suffix
    have zigzagged := readZigzag_encodeZigzag x 0 suffix
    have plain := readInt_encodeInt x 0 suffix
    rw [Nat.zero_add] at zigzagged plain
    exact ⟨zigzagged, plain⟩
  · exact Function.bijective_iff_has_inverse.mpr ⟨unzigzag, unzigzag_zigzag, zigzag_unzigzag⟩
  · exact Function.bijective_iff_has_inverse.mpr ⟨zigzag, zigzag_unzigzag, unzigzag_zigzag⟩

end Reader
end TermStats
