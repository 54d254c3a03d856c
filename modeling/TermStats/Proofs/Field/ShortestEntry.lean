import TermStats.Proofs.Field.Delta
import TermStats.Proofs.Field.Grammar
import TermStats.Proofs.Varint.Shortest

/-!
The shortest bytes of an entry. Its numbers are shortest varints, and a string term keeps as much of
the one before it as the two share. No other bytes of the same entry are fewer.
-/

namespace TermStats

open Varint

/-- The bytes of an entry that leads from one string term to another, if it is a string's. -/
def encodeEntry : TermKind → (previous : Bytes) → EntryDeltas → (term : Bytes) → Bytes
  | .int, _, entry, _ =>
      encodeInt entry.idDelta ++ (encodeInt entry.offsetDelta ++ encodeInt entry.docFreq)
  | .string, previous, entry, term =>
      let shared := commonLength previous term
      encodeNat (previous.length - shared) ++ (encodeNat (term.length - shared) ++
        (term.drop shared ++ (encodeInt entry.offsetDelta ++ encodeInt entry.docFreq)))

theorem isEntry_encodeEntry_int (previous : Bytes) (entry : EntryDeltas) (term : Bytes) :
    IsEntry .int previous (encodeEntry .int previous entry term) entry previous :=
  .int (isVarint_encode _) (isVarint_encode _) (isVarint_encode _)

/-- What a string term does not share with the one before it has a length that can be stored. -/
theorem isEntry_encodeEntry_string {previous term : Bytes}
    (removed : previous.length - commonLength previous term < 2 ^ 64)
    (added : term.length - commonLength previous term < 2 ^ 64) (offsetDelta docFreq : Int64) :
    IsEntry .string previous (encodeEntry .string previous ⟨0, offsetDelta, docFreq⟩ term)
      ⟨0, offsetDelta, docFreq⟩ term := by
  have hremoved : (previous.length - commonLength previous term).toUInt64.toNat =
      previous.length - commonLength previous term := UInt64.toNat_ofNat_of_lt' removed
  have hadded : (term.drop (commonLength previous term)).length =
      (term.length - commonLength previous term).toUInt64.toNat := by
    rw [List.length_drop]
    exact (UInt64.toNat_ofNat_of_lt' added).symm
  have entry := IsEntry.string (isVarint_encodeNat removed) (isVarint_encodeNat added)
    (hremoved ▸ Nat.sub_le _ _) hadded (isVarint_encode offsetDelta.toUInt64)
    (isVarint_encode docFreq.toUInt64)
  have kept : previous.length - (previous.length - commonLength previous term) =
      commonLength previous term := Nat.sub_sub_self (commonLength_le_left previous term)
  rwa [hremoved, kept, take_append_drop_commonLength] at entry

variable {kind : TermKind} {previous taken term : Bytes} {entry : EntryDeltas}

/-- An entry that keeps less of the term before it has more to remove and more to add. -/
theorem kept_le_commonLength (previous suffix : Bytes) (removed : Nat) :
    previous.length - removed ≤
      commonLength previous (previous.take (previous.length - removed) ++ suffix) := by
  have short : previous.length - removed ≤ previous.length := Nat.sub_le _ _
  have kept : (previous.take (previous.length - removed)).length = previous.length - removed :=
    List.length_take_of_le short
  refine le_commonLength short ?_ ?_
  · rw [List.length_append, kept]
    exact Nat.le_add_right _ _
  · rw [List.take_append_of_le_length (Nat.le_of_eq kept.symm), List.take_take, Nat.min_self]

/-- The shortest bytes of an entry are bytes of that entry, and no more than any others. -/
theorem IsEntry.shortest (h : IsEntry kind previous taken entry term) :
    IsEntry kind previous (encodeEntry kind previous entry term) entry term ∧
      (encodeEntry kind previous entry term).length ≤ taken.length := by
  cases h with
  | @int _ a b c idDelta offsetDelta docFreq ha hb hc =>
      refine ⟨isEntry_encodeEntry_int _ _ _, ?_⟩
      have := ha.length_encode_le
      have := hb.length_encode_le
      have := hc.length_encode_le
      simp only [encodeEntry, encodeInt, List.length_append]
      omega
  | @string _ a b suffix c d removed added offsetDelta docFreq ha hb within length hc hd =>
      have shared := kept_le_commonLength previous suffix removed.toNat
      have whole : (previous.take (previous.length - removed.toNat) ++ suffix).length =
          previous.length - removed.toNat + suffix.length := by
        rw [List.length_append, List.length_take_of_le (Nat.sub_le _ _)]
      generalize previous.take (previous.length - removed.toNat) ++ suffix = term at *
      have fewer : previous.length - commonLength previous term ≤ removed.toNat := by omega
      have fewer' : term.length - commonLength previous term ≤ added.toNat := by omega
      refine ⟨isEntry_encodeEntry_string (Nat.lt_of_le_of_lt fewer removed.toNat_lt)
        (Nat.lt_of_le_of_lt fewer' added.toNat_lt) _ _, ?_⟩
      have := Nat.le_trans (length_encodeNat_mono fewer) ha.length_encode_le
      have := Nat.le_trans (length_encodeNat_mono fewer') hb.length_encode_le
      have := hc.length_encode_le
      have := hd.length_encode_le
      simp only [encodeEntry, encodeInt, List.length_append, List.length_drop]
      omega

end TermStats
