import TermStats.Proofs.Field.PostingList
import TermStats.Proofs.Run.Checked
import TermStats.Proofs.Shard.Summary
import TermStats.Proofs.Storage.Table
import TermStats.Proofs.Term.Partition

/-!
When everything that a run reads can be read, in terms of the shards alone: each field can be
summarized, and its documents have rows in the table, in groups that there may be. The ids of all
splits together are those of the field, so it makes no difference how the field is divided.
-/

namespace TermStats

open Wire (TermRecord)

namespace PackedTable

/-- The document has a row, in group 0 or in a counted group. -/
def Places (t : PackedTable) (numGroups : Nat) (doc : Int64) : Prop :=
  doc.toInt < t.rowCount ∧
    ∃ group, t.group doc.toInt.toNat = .ok group ∧ (group = 0 ∨ group.toNat < numGroups)

theorem readRow_isSome {t : PackedTable} (total : t.Total) (numGroups : Nat) {numStats : Nat}
    (wide : numStats ≤ t.colCount) (binary : Bool) {doc : Int64} (nonneg : 0 ≤ doc) :
    (readRow numGroups numStats binary t doc).isSome ↔ t.Places numGroups doc := by
  have sign : 0 ≤ doc.toInt := Int64.le_iff_toInt_le.mp nonneg
  simp only [readRow, Places]
  by_cases inTable : doc.toInt < t.rowCount
  · have inRange : ¬ (doc < 0 ∨ t.rowCount ≤ doc.toInt.toNat) := by
      rintro (negative | beyond)
      · exact absurd nonneg (Std.not_le.mpr negative)
      · omega
    obtain ⟨⟨group, hgroup⟩, cells⟩ := total doc.toInt.toNat (by omega)
    have values : ((List.range numStats).mapM
        (readValue binary t doc.toInt.toNat)).isSome := by
      rw [mapM_isSome]
      intro col hcol
      obtain ⟨⟨v, hv⟩, b, hb⟩ := cells col (Nat.lt_of_lt_of_le (List.mem_range.mp hcol) wide)
      rw [readValue, hv, hb]
      cases binary <;> rfl
    rw [if_neg inRange, hgroup]
    by_cases zero : group = 0
    · simp [zero, inTable, Except.toOption]
    · by_cases counted : numGroups ≤ group.toNat
      · simp [zero, counted, Except.toOption, Nat.not_lt.mpr counted]
      · simpa [zero, counted, Except.toOption, inTable, Nat.lt_of_not_le counted] using values
  · have outside : doc < 0 ∨ t.rowCount ≤ doc.toInt.toNat := .inr (by omega)
    rw [if_pos outside]
    simp [inTable]

end PackedTable

namespace Shard

theorem mem_documents {s : Shard} {name : String} {offset : Int64} {freq : Int32} {d : Document}
    (h : d ∈ s.documents name offset freq) :
    d.1 = s.table ∧ ∀ doc, d.2 = .ok doc → 0 ≤ doc := by
  simp only [documents] at h
  split at h
  · cases h
  · split at h
    · rename_i hlocate
      obtain ⟨item, hitem, rfl⟩ := List.mem_map.mp h
      refine ⟨rfl, ?_⟩
      rintro doc rfl
      exact DocIds.nonneg_of_locate hlocate hitem
    · rw [List.mem_singleton.mp h]
      refine ⟨rfl, fun doc hdoc => ?_⟩
      cases hdoc

/-- The field can be summarized, and its documents are all placed. -/
def Readable (s : Shard) (numGroups : Nat) (name : String) : Prop :=
  (∃ summary, s.summarize name = .ok summary) ∧
    ∀ t ∈ s.terms name, ∀ d ∈ s.documents name t.offset t.freq, ∀ doc, d.2 = .ok doc →
      s.table.Places numGroups doc

end Shard

namespace RunContext

variable {c : RunContext} {name : String}

/-- Everything that a run reads can be read. -/
def Readable (c : RunContext) : Prop :=
  ∀ shard ∈ c.shards, ∀ field ∈ c.settings.fields, shard.Readable c.settings.numGroups field.1

theorem readDoc_isSome {shard : Shard} (total : shard.table.Total)
    (wide : c.settings.numStats ≤ shard.table.colCount) {t : Term} {d : Document}
    (h : d ∈ shard.documents name t.offset t.freq) :
    (c.readDoc d).isSome ↔
      d.2.isOk ∧ ∀ doc, d.2 = .ok doc → shard.table.Places c.settings.numGroups doc := by
  obtain ⟨table, item⟩ := d
  obtain ⟨rfl, nonneg⟩ := Shard.mem_documents h
  cases item with
  | error f => simp [readDoc, TermStats.readDoc, Except.isOk, Except.toBool]
  | ok doc =>
      have row := PackedTable.readRow_isSome total c.settings.numGroups wide
        c.settings.binaryMetrics (nonneg doc rfl)
      simpa [readDoc, TermStats.readDoc, Except.isOk, Except.toBool] using row

theorem shard_readable_iff (checked : c.Checked) {shard : Shard} (hs : shard ∈ c.shards)
    (total : shard.table.Total) {field : String × TermKind} (hf : field ∈ c.settings.fields) :
    shard.Readable c.settings.numGroups field.1 ↔
      firstFault? (shard.termItems field.1) = none ∧
        ∀ t ∈ shard.terms field.1, ∀ d ∈ shard.documents field.1 t.offset t.freq,
          (c.readDoc d).isSome := by
  obtain ⟨files, hfiles, _⟩ := checked.fields shard hs field hf
  have wide := checked.columns shard hs
  rw [Shard.Readable, Shard.summarize_ok hfiles]
  refine ⟨fun ⟨⟨sound, lists⟩, placed⟩ => ⟨sound, fun t ht d hd => ?_⟩,
    fun ⟨sound, read⟩ => ⟨⟨sound, fun t ht d hd => ?_⟩, fun t ht d hd => ?_⟩⟩
  · exact (readDoc_isSome total wide hd).mpr ⟨lists t ht d hd, placed t ht d hd⟩
  · exact ((readDoc_isSome total wide hd).mp (read t ht d hd)).1
  · exact ((readDoc_isSome total wide hd).mp (read t ht d hd)).2

/-- The ids of a field all have records when the documents of all its terms can be read. -/
theorem record?_isSome_iff : (∀ id ∈ c.ids name, (c.record? name id).isSome) ↔
    ∀ shard ∈ c.shards, ∀ t ∈ shard.terms name, ∀ d ∈ shard.documents name t.offset t.freq,
      (c.readDoc d).isSome := by
  have one : ∀ id, (c.record? name id).isSome ↔ ∀ d ∈ c.documentsOf name id,
      (c.readDoc d).isSome := by
    intro id
    rw [record?, Option.isSome_map, mapM_isSome]
  have members : ∀ id d, d ∈ c.documentsOf name id ↔ ∃ shard ∈ c.shards, ∃ t ∈ shard.terms name,
      t.id = id ∧ d ∈ shard.documents name t.offset t.freq := by
    intro id d
    simp only [documentsOf, termsOf, List.mem_flatMap, List.mem_map, List.mem_filter,
      decide_eq_true_eq]
    refine ⟨?_, ?_⟩
    · rintro ⟨_, ⟨shard, hs, t, ⟨ht, hid⟩, rfl⟩, hd⟩
      exact ⟨shard, hs, t, ht, hid, hd⟩
    · rintro ⟨shard, hs, t, ht, hid, hd⟩
      exact ⟨(shard, t), ⟨shard, hs, t, ⟨ht, hid⟩, rfl⟩, hd⟩
  refine ⟨?_, ?_⟩
  · intro h shard hs t ht d hd
    have mem : t.id ∈ c.ids name := mem_ids.mpr ⟨shard, hs, t, ht, rfl⟩
    exact (one t.id).mp (h t.id mem) d ((members t.id d).mpr ⟨shard, hs, t, ht, rfl, hd⟩)
  · intro h id _
    refine (one id).mpr fun d hd => ?_
    obtain ⟨shard, hs, t, ht, _, hd⟩ := (members id d).mp hd
    exact h shard hs t ht d hd

/-- Each id is in one of the splits. -/
theorem exists_inSplit (checked : c.Checked) (word : c.settings.numSplits < 2 ^ 63) (id : TermId) :
    ∃ split, split < c.settings.numSplits ∧ c.inSplit split id = true := by
  obtain ⟨split, hs, hsplit⟩ :=
    c.settings.partitionRule.exists_splitOf? id checked.valid.splits word
  exact ⟨split, hs, by simp [inSplit, hsplit]⟩

theorem forall_splitIds (checked : c.Checked) (word : c.settings.numSplits < 2 ^ 63)
    {p : TermId → Prop} :
    (∀ split < c.settings.numSplits, ∀ id ∈ c.splitIds name split, p id) ↔
      ∀ id ∈ c.ids name, p id := by
  refine ⟨?_, fun h split _ id hid => h id (List.mem_filter.mp hid).1⟩
  intro h id hid
  obtain ⟨split, hs, inSplit⟩ := exists_inSplit checked word id
  exact h split hs id (List.mem_filter.mpr ⟨hid, inSplit⟩)

/-- The splits of a field can all be read when it is readable in every shard. -/
theorem readable_iff (checked : c.Checked) (word : c.settings.numSplits < 2 ^ 63)
    (total : ∀ shard ∈ c.shards, shard.table.Total) {field : String × TermKind}
    (hf : field ∈ c.settings.fields) :
    (∀ split < c.settings.numSplits,
      (∀ shard ∈ c.shards, firstFault? (shard.termItems field.1) = none) ∧
        ∀ id ∈ c.splitIds field.1 split, (c.record? field.1 id).isSome) ↔
      ∀ shard ∈ c.shards, shard.Readable c.settings.numGroups field.1 := by
  refine ⟨?_, ?_⟩
  · intro h shard hs
    have sound := (h 0 checked.valid.splits).1 shard hs
    have read := (forall_splitIds checked word).mp fun split hsplit => (h split hsplit).2
    exact (shard_readable_iff checked hs (total shard hs) hf).mpr
      ⟨sound, record?_isSome_iff.mp read shard hs⟩
  · intro h split hsplit
    have both := fun shard hs =>
      (shard_readable_iff checked hs (total shard hs) hf).mp (h shard hs)
    have read := record?_isSome_iff.mpr fun shard hs => (both shard hs).2
    exact ⟨fun shard hs => (both shard hs).1,
      (forall_splitIds checked word).mpr read split hsplit⟩

end RunContext
end TermStats
