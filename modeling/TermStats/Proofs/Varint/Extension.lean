import TermStats.Proofs.Varint.Digits

/-!
Reading when more bytes follow. What a read that succeeds gives, and where it leaves the reader,
depends only on the bytes that it takes.
-/

namespace TermStats

namespace Varint

theorem decode_append {bytes rest : Bytes} {v : UInt64} (h : decode bytes = .ok (v, rest))
    (more : Bytes) : decode (bytes ++ more) = .ok (v, rest ++ more) := by
  obtain ⟨taken, rfl, hv⟩ := decode_iff.mp h
  exact decode_iff.mpr ⟨taken, List.append_assoc .., hv⟩

end Varint

namespace Reader

/-- The reader at the same place, with more bytes behind those that it has. -/
def extend (r : Reader) (more : Bytes) : Reader :=
  { r with rest := r.rest ++ more }

variable {r r' : Reader}

theorem readU64_extend {v : UInt64} (h : r.readU64 = .ok (v, r')) (more : Bytes) :
    (r.extend more).readU64 = .ok (v, r'.extend more) := by
  simp only [readU64] at h
  split at h
  · cases h
  · rename_i hd
    cases h
    simp only [readU64, extend, Varint.decode_append hd, List.length_append,
      Nat.add_sub_add_right]

theorem readZigzag_extend {v : Int64} (h : r.readZigzag = .ok (v, r')) (more : Bytes) :
    (r.extend more).readZigzag = .ok (v, r'.extend more) := by
  simp only [readZigzag] at h
  split at h
  · cases h
  · rename_i hd
    cases h
    simp only [readZigzag, readU64_extend hd]

theorem readByte_extend {b : UInt8} (h : r.readByte = .ok (b, r')) (more : Bytes) :
    (r.extend more).readByte = .ok (b, r'.extend more) := by
  simp only [readByte] at h
  split at h
  · cases h
  · rename_i hr
    cases h
    simp only [readByte, extend, hr, List.cons_append]

theorem readBytes_extend {count : Nat} {bs : Bytes} (h : r.readBytes count = .ok (bs, r'))
    (more : Bytes) : (r.extend more).readBytes count = .ok (bs, r'.extend more) := by
  simp only [readBytes] at h
  split at h
  · cases h
  · rename_i enough
    cases h
    have enough := Nat.le_of_not_lt enough
    have still : ¬ (r.rest ++ more).length < count := by
      rw [List.length_append]
      omega
    simp only [readBytes, extend, if_neg still, List.take_append_of_le_length enough,
      List.drop_append_of_le_length enough]

end Reader
end TermStats
