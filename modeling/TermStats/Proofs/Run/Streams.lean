import Mathlib.Logic.ExistsUnique
import TermStats.Proofs.Traversal
import TermStats.Run.Settings

/-!
The numbering of streams. Their number and their indices are words. As long as there are fewer
streams than words, each field's split has a stream of its own; otherwise the last ones have none.
-/

namespace TermStats.Settings

theorem length_fields (s : Settings) : s.fields.length = s.numFields := by
  simp [fields, Shard.typedFields, numFields]

/-- There are fewer streams than words. -/
def StreamsFit (s : Settings) : Prop :=
  s.numFields * s.numSplits < UInt64.size

/-- The field's split stands before the end of the streams that are counted. -/
def HasStream (s : Settings) (f split : Nat) : Prop :=
  f * s.numSplits + split < s.numStreams

instance (s : Settings) : Decidable s.StreamsFit :=
  inferInstanceAs (Decidable (_ < _))

instance (s : Settings) (f split : Nat) : Decidable (s.HasStream f split) :=
  inferInstanceAs (Decidable (_ < _))

variable {s : Settings} {f g split split' : Nat}

theorem numStreams_lt (s : Settings) : s.numStreams < UInt64.size :=
  Nat.mod_lt _ (by decide)

theorem numStreams_le (s : Settings) : s.numStreams ≤ s.numFields * s.numSplits :=
  Nat.mod_le _ _

theorem streamsFit_iff : s.StreamsFit ↔ s.numFields * s.numSplits ≤ s.numStreams := by
  refine ⟨fun fit => Nat.le_of_eq (Nat.mod_eq_of_lt fit).symm, ?_⟩
  exact fun most => Nat.lt_of_le_of_lt most s.numStreams_lt

theorem StreamsFit.numStreams_eq (fit : s.StreamsFit) :
    s.numStreams = s.numFields * s.numSplits :=
  Nat.mod_eq_of_lt fit

theorem HasStream.streamIndex_eq (has : s.HasStream f split) :
    s.streamIndex f split = f * s.numSplits + split :=
  Nat.mod_eq_of_lt (Nat.lt_trans has s.numStreams_lt)

theorem HasStream.streamIndex_lt (has : s.HasStream f split) :
    s.streamIndex f split < s.numStreams := by
  rw [has.streamIndex_eq]
  exact has

theorem StreamsFit.hasStream (fit : s.StreamsFit) (hf : f < s.numFields)
    (hs : split < s.numSplits) : s.HasStream f split := by
  rw [HasStream, fit.numStreams_eq]
  exact Nat.lt_of_lt_of_le (Nat.add_lt_add_left hs _) (block_end_le hf)

theorem StreamsFit.hasStream_of_field (fit : s.StreamsFit) {field : String × TermKind}
    (hf : s.fields[f]? = some field) (hs : split < s.numSplits) : s.HasStream f split :=
  fit.hasStream (s.length_fields ▸ (List.getElem?_eq_some_iff.mp hf).1) hs

/-- Every number below that of all fields' splits is the place of one of them. -/
theorem exists_place {i : Nat} (h : i < s.numFields * s.numSplits) :
    ∃ f split field, s.fields[f]? = some field ∧ split < s.numSplits ∧
      f * s.numSplits + split = i := by
  have inField : i / s.numSplits < s.fields.length := by
    rw [s.length_fields]
    exact Nat.div_lt_of_lt_mul (Nat.mul_comm _ _ ▸ h)
  have some_splits : 0 < s.numSplits := by
    apply Nat.pos_of_ne_zero
    intro none
    simp [none] at h
  refine ⟨i / s.numSplits, i % s.numSplits, _, List.getElem?_eq_getElem inField,
    Nat.mod_lt _ some_splits, ?_⟩
  rw [Nat.mul_comm, Nat.div_add_mod]

/-- Every stream is that of one field's split. -/
theorem exists_streamIndex {i : Nat} (h : i < s.numStreams) :
    ∃ f split field, s.fields[f]? = some field ∧ split < s.numSplits ∧ s.HasStream f split ∧
      i = s.streamIndex f split := by
  obtain ⟨f, split, field, hf, hs, rfl⟩ := exists_place (Nat.lt_of_lt_of_le h s.numStreams_le)
  have has : s.HasStream f split := h
  exact ⟨f, split, field, hf, hs, has, has.streamIndex_eq.symm⟩

end TermStats.Settings
