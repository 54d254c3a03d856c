import TermStats.Proofs.Varint.Extension

/-!
The bytes that a read takes. A read that succeeds does the same when these are all that there is.
-/

namespace TermStats

namespace Varint

theorem decode_taken {bytes rest : Bytes} {v : UInt64} (h : decode bytes = .ok (v, rest)) :
    ∃ taken, bytes = taken ++ rest ∧ decode taken = .ok (v, []) := by
  obtain ⟨taken, rfl, hv⟩ := decode_iff.mp h
  exact ⟨taken, rfl, decode_iff.mpr ⟨taken, (List.append_nil taken).symm, hv⟩⟩

end Varint

namespace Reader

/-- The reader at the same place, with nothing but these bytes. -/
def only (r : Reader) (bytes : Bytes) : Reader :=
  { r with rest := bytes }

variable {r r' : Reader}

theorem readU64_taken {v : UInt64} (h : r.readU64 = .ok (v, r')) :
    ∃ taken, r.rest = taken ++ r'.rest ∧ (r.only taken).readU64 = .ok (v, r'.only []) := by
  simp only [readU64] at h
  split at h
  · cases h
  · rename_i rest hd
    cases h
    obtain ⟨taken, same, htaken⟩ := Varint.decode_taken hd
    refine ⟨taken, same, ?_⟩
    simp only [readU64, only, htaken, same, List.length_append, Nat.add_sub_cancel,
      List.length_nil, Nat.sub_zero]

theorem readZigzag_taken {v : Int64} (h : r.readZigzag = .ok (v, r')) :
    ∃ taken, r.rest = taken ++ r'.rest ∧ (r.only taken).readZigzag = .ok (v, r'.only []) := by
  simp only [readZigzag] at h
  split at h
  · cases h
  · rename_i hd
    cases h
    obtain ⟨taken, same, htaken⟩ := readU64_taken hd
    refine ⟨taken, same, ?_⟩
    rw [readZigzag, htaken]

theorem readByte_taken {b : UInt8} (h : r.readByte = .ok (b, r')) :
    r.rest = b :: r'.rest ∧ (r.only [b]).readByte = .ok (b, r'.only []) := by
  simp only [readByte] at h
  split at h
  · cases h
  · rename_i same
    cases h
    exact ⟨same, rfl⟩

theorem readBytes_taken {count : Nat} {bytes : Bytes} (h : r.readBytes count = .ok (bytes, r')) :
    r.rest = bytes ++ r'.rest ∧ (r.only bytes).readBytes count = .ok (bytes, r'.only []) := by
  simp only [readBytes] at h
  split at h
  · cases h
  · rename_i enough
    cases h
    have whole : (r.rest.take count).length = count :=
      List.length_take_of_le (Nat.le_of_not_lt enough)
    refine ⟨(List.take_append_drop _ _).symm, ?_⟩
    have within : ¬ (r.rest.take count).length < count := Nat.not_lt.mpr (Nat.le_of_eq whole.symm)
    rw [readBytes, only, if_neg within, List.take_of_length_le (Nat.le_of_eq whole),
      List.drop_of_length_le (Nat.le_of_eq whole)]
    rfl

end Reader
end TermStats
