import TermStats.Proofs.Run.Reference
import TermStats.Proofs.Term.MergeFaults
import TermStats.Proofs.Term.Partition
import TermStats.Shard.Provider

/-!
The providers of a field's terms. A provider has a cursor at the start of each shard's term file,
and its splits divide the merge of all terms: each split's merge yields the whole merge's
descriptors of its ids, unchanged and in the same order.
-/

namespace TermStats

open Result

/-- Parts by a value that each element has, in any order, make the whole. -/
theorem perm_of_parts {α : Type} {l : List α} (distinct : l.Nodup) {f : α → Option Nat} {n : Nat}
    (inRange : ∀ a ∈ l, ∃ i < n, f a = some i) :
    ((List.range n).flatMap fun i => l.filter (f · = some i)).Perm l := by
  refine (List.perm_ext_iff_of_nodup ?_ distinct).mpr fun a => ?_
  · refine List.pairwise_flatMap.mpr ⟨fun i _ => distinct.filter _, ?_⟩
    refine List.nodup_range.imp fun {i j} hij a ha b hb hab => hij ?_
    subst hab
    simp only [List.mem_filter, decide_eq_true_eq] at ha hb
    exact Option.some.inj (ha.2.symm.trans hb.2)
  · simp only [List.mem_flatMap, List.mem_range, List.mem_filter, decide_eq_true_eq]
    refine ⟨fun ⟨_, _, ha, _⟩ => ha, fun ha => ?_⟩
    obtain ⟨i, hi, hf⟩ := inRange a ha
    exact ⟨i, hi, ha, hf⟩

namespace Provider

theorem openSources_ok {field : String} {kind : TermKind} {firstDir : Path} {opening index : Nat}
    {shards : List Shard} {sources : List (Shard × Cursor)}
    (h : openSources field kind firstDir opening index shards = .ok sources) :
    sources.map (·.1) = shards ∧ ∀ source ∈ sources, ∃ files opening,
      source.1.field field = .ok files ∧
        source.2 = .ofFile ⟨opening, source.1.directory, field, files.kind, files.terms.bytes⟩ := by
  induction shards generalizing index sources with
  | nil =>
      cases h
      exact ⟨rfl, nofun⟩
  | cons shard rest ih =>
      simp only [openSources, bind_eq_ok] at h
      obtain ⟨files, hfiles, h⟩ := h
      split at h
      · exact absurd h throw_ne_ok
      · simp only [bind_eq_ok, pure_eq_ok] at h
        obtain ⟨cursor, hcursor, more, hmore, rfl⟩ := h
        simp only [Shard.termCursor, bind_eq_ok, pure_eq_ok] at hcursor
        obtain ⟨files', hfiles', rfl⟩ := hcursor
        obtain ⟨hshards, hsources⟩ := ih hmore
        exact ⟨congrArg (shard :: ·) hshards,
          List.forall_mem_cons.mpr ⟨⟨files', _, hfiles', rfl⟩, hsources⟩⟩

theorem openSources_of_kind {field : String} {kind : TermKind} {shards : List Shard}
    (h : ∀ shard ∈ shards, ∃ files, shard.field field = .ok files ∧ files.kind = kind)
    (firstDir : Path) (opening index : Nat) :
    ∃ sources, openSources field kind firstDir opening index shards = .ok sources := by
  induction shards generalizing index with
  | nil => exact ⟨[], rfl⟩
  | cons shard rest ih =>
      obtain ⟨⟨files, hfiles, hkind⟩, hrest⟩ := List.forall_mem_cons.mp h
      obtain ⟨more, hmore⟩ := ih hrest (index + 1)
      refine ⟨(shard, .ofFile ⟨⟨opening, index⟩, shard.directory, field, files.kind,
        files.terms.bytes⟩) :: more, ?_⟩
      rw [openSources, Shard.termCursor, hfiles, hmore]
      simp [hkind, bind, Except.bind, pure, Except.pure]

theorem ofShards_ok {shards : List Shard} {field : String} {numSplits opening : Nat}
    {partitioner : Partitioner} {p : Provider}
    (h : ofShards shards field numSplits partitioner opening = .ok p) :
    p.field = field ∧ p.numSplits = numSplits ∧ p.partitioner = partitioner ∧
      shards.length < UInt32.size ∧ (∃ shard ∈ shards, ∃ files, shard.field field = .ok files ∧
        files.kind = p.kind) ∧ p.sources.map (·.1) = shards ∧
      ∀ source ∈ p.sources, ∃ files opening, source.1.field field = .ok files ∧
        source.2 = .ofFile ⟨opening, source.1.directory, field, files.kind, files.terms.bytes⟩ := by
  simp only [ofShards] at h
  split at h
  · cases h
  · split at h
    · cases h
    · rename_i first rest
      split at h
      · exact absurd h throw_ne_ok
      · rename_i hfew
        simp only [bind_eq_ok, pure_eq_ok] at h
        obtain ⟨files, hfiles, sources, hsources, rfl⟩ := h
        obtain ⟨hshards, hcursors⟩ := openSources_ok hsources
        exact ⟨rfl, rfl, rfl, Nat.lt_of_not_le hfew,
          ⟨first, List.mem_cons_self, files, hfiles, rfl⟩, hshards, hcursors⟩

theorem ofShards_of_kind {shards : List Shard} {field : String} {kind : TermKind} {numSplits : Nat}
    (some_splits : 0 < numSplits) (some_shards : shards ≠ []) (few : shards.length < UInt32.size)
    (h : ∀ shard ∈ shards, ∃ files, shard.field field = .ok files ∧ files.kind = kind)
    (partitioner : Partitioner) (opening : Nat) :
    ∃ p, ofShards shards field numSplits partitioner opening = .ok p := by
  cases shards with
  | nil => exact absurd rfl some_shards
  | cons first rest =>
      obtain ⟨⟨files, hfiles, hkind⟩, _⟩ := List.forall_mem_cons.mp h
      obtain ⟨sources, hsources⟩ := openSources_of_kind h first.directory opening 0
      refine ⟨⟨sources, field, files.kind, numSplits, partitioner⟩, ?_⟩
      rw [ofShards, if_neg (Nat.ne_of_gt some_splits)]
      simp only [if_neg (Nat.not_le.mpr few), hfiles, hkind, hsources, bind, Except.bind, pure,
        Except.pure]

/-- The provider has a cursor at the start of the field in each of the shards, which are few enough
for postings to name. -/
structure Reads (p : Provider) (field : String) (shards : List Shard) : Prop where
  shards_eq : p.sources.map (·.1) = shards
  few : shards.length < UInt32.size
  cursors : ∀ source ∈ p.sources, ∃ files opening, source.1.field field = .ok files ∧
    source.2 = .ofFile ⟨opening, source.1.directory, field, files.kind, files.terms.bytes⟩

/-- What the provider merges, where it filters by a share. -/
def mergeSources (p : Provider) (share : Option Share) : List (UInt32 × SplitTerms Cursor) :=
  p.sources.zipIdx.map fun source => (source.2.toUInt32, ⟨source.1.2, share⟩)

theorem mergeOf_eq (p : Provider) (share : Option Share) :
    p.mergeOf share = .ofSources (p.mergeSources share) := rfl

section Reads

variable {p : Provider} {field : String} {shards : List Shard}

theorem Reads.toList_cursor (reads : p.Reads field shards) {shard : Shard} {cursor : Cursor}
    (h : (shard, cursor) ∈ p.sources) : TermSource.toList cursor = shard.termItems field := by
  obtain ⟨files, opening, hfield, hcursor⟩ := reads.cursors _ h
  have hcursor : cursor = (Cursor.ofFile
      ⟨default, shard.directory, field, files.kind, files.terms.bytes⟩).reopened opening := hcursor
  rw [hcursor, Cursor.toList_reopened, Shard.termItems_eq hfield]

theorem Reads.reachable_cursor (reads : p.Reads field shards) {shard : Shard} {cursor : Cursor}
    (h : (shard, cursor) ∈ p.sources) : cursor.Reachable := by
  obtain ⟨_, _, _, hcursor⟩ := reads.cursors _ h
  rw [show cursor = _ from hcursor]
  exact .ofFile _

theorem Reads.shard?_getElem (reads : p.Reads field shards) (index : UInt32) :
    p.shard? index = shards[index.toNat]? := by
  rw [shard?, ← List.getElem?_map, reads.shards_eq]

theorem Reads.shard?_eq (reads : p.Reads field shards) {i : Nat} {shard : Shard}
    (h : shards[i]? = some shard) : p.shard? i.toUInt32 = some shard := by
  have hlt : i < UInt32.size := Nat.lt_trans (List.getElem?_eq_some_iff.mp h).1 reads.few
  rw [reads.shard?_getElem, UInt32.toNat_ofNat_of_lt' hlt, h]

theorem Reads.shard?_of_mem (reads : p.Reads field shards) {source : (Shard × Cursor) × Nat}
    (h : source ∈ p.sources.zipIdx) :
    source.1 ∈ p.sources ∧ p.shard? source.2.toUInt32 = some source.1.1 := by
  have hget := List.mem_zipIdx_iff_getElem?.mp h
  refine ⟨List.mem_of_getElem? hget, reads.shard?_eq ?_⟩
  rw [← reads.shards_eq, List.getElem?_map, hget]
  rfl

/-- Gathering from the sources is gathering from the numbered shards, where a source gives what its
shard does. -/
theorem Reads.flatMap_mergeSources (reads : p.Reads field shards) {share : Option Share} {β : Type}
    {f : UInt32 × SplitTerms Cursor → List β} {g : Shard × Nat → List β}
    (h : ∀ (i : Nat) (shard : Shard) (cursor : Cursor), (shard, cursor) ∈ p.sources →
      p.shard? i.toUInt32 = some shard → f (i.toUInt32, ⟨cursor, share⟩) = g (shard, i)) :
    (p.mergeSources share).flatMap f = shards.zipIdx.flatMap g := by
  have each : ∀ source ∈ p.sources.zipIdx,
      f (source.2.toUInt32, ⟨source.1.2, share⟩) = g (source.1.1, source.2) := by
    rintro ⟨⟨shard, cursor⟩, i⟩ hi
    obtain ⟨mem, hshard⟩ := reads.shard?_of_mem hi
    exact h i shard cursor mem hshard
  rw [mergeSources, List.flatMap_map, List.flatMap_def, List.map_congr_left each, ← reads.shards_eq,
    List.zipIdx_map, List.flatMap_map, List.flatMap_def]
  rfl

theorem Reads.ordered_mergeSources (reads : p.Reads field shards) (share : Option Share) :
    (Merge.ofSources (p.mergeSources share)).Ordered := by
  refine Merge.ordered_ofSources fun s hs => ?_
  obtain ⟨⟨⟨shard, cursor⟩, i⟩, hi, rfl⟩ := List.mem_map.mp hs
  exact (reads.reachable_cursor (reads.shard?_of_mem hi).1).sound

theorem Reads.faults_eq_nil_iff (reads : p.Reads field shards) (share : Option Share) :
    (Merge.ofSources (p.mergeSources share)).faults = [] ↔
      ∀ shard ∈ shards, firstFault? (shard.termItems field) = none := by
  rw [Merge.faults_ofSources_eq_nil]
  refine ⟨fun h shard hshard => ?_, fun h s hs => ?_⟩
  · rw [← reads.shards_eq] at hshard
    obtain ⟨⟨shard, cursor⟩, mem, rfl⟩ := List.mem_map.mp hshard
    obtain ⟨i, hi⟩ := List.getElem?_of_mem mem
    have source : ((shard, cursor), i) ∈ p.sources.zipIdx := List.mem_zipIdx_iff_getElem?.mpr hi
    rw [← reads.toList_cursor mem]
    exact h _ (List.mem_map.mpr ⟨_, source, rfl⟩)
  · obtain ⟨⟨⟨shard, cursor⟩, i⟩, hi, rfl⟩ := List.mem_map.mp hs
    have mem := (reads.shard?_of_mem hi).1
    refine (congrArg firstFault? (reads.toList_cursor mem)).trans (h shard ?_)
    rw [← reads.shards_eq]
    exact List.mem_map.mpr ⟨_, mem, rfl⟩

end Reads

section Splits

variable {p : Provider} {field : String} {shards : List Shard}

/-- The descriptors of the whole field, when nothing is amiss in its term files. -/
def descriptors (p : Provider) : List Descriptor :=
  collect (Merge.ofSources (p.mergeSources none)).entries

/-- A share's terms are those of its ids, in each source and so in all. -/
theorem entries_share (p : Provider) (share : Share) :
    (Merge.ofSources (p.mergeSources (some share))).entries =
      (Merge.ofSources (p.mergeSources none)).entries.filter (share.keeps ·.1) := by
  rw [Merge.entries_ofSources, Merge.entries_ofSources, mergeSources, mergeSources,
    List.filter_flatMap, List.flatMap_map, List.flatMap_map]
  refine congrArg (p.sources.zipIdx.flatMap ·) (funext fun source => ?_)
  have whole : (⟨source.1.2, none⟩ : SplitTerms Cursor).remaining =
      beforeFault (TermSource.toList source.1.2) := List.filter_eq_self.mpr fun _ _ => rfl
  rw [List.filter_map, whole]
  rfl

theorem Reads.items_mergeOf (reads : p.Reads field shards)
    (sound : ∀ shard ∈ shards, ∀ x ∈ shard.termItems field, ∃ t, x = .ok t)
    (share : Option Share) : (p.mergeOf share).items =
      (collect (Merge.ofSources (p.mergeSources share)).entries).map .ok := by
  rw [mergeOf_eq]
  refine Merge.items_eq (reads.ordered_mergeSources share) ?_
  rw [reads.faults_eq_nil_iff]
  intro shard hshard
  rw [firstFault?_eq_none]
  intro x hx
  obtain ⟨t, rfl⟩ := sound shard hshard x hx
  rfl

/-- A split's merge yields the whole merge's descriptors of the split's ids. -/
theorem Reads.items_mergeSplit (reads : p.Reads field shards)
    (sound : ∀ shard ∈ shards, ∀ x ∈ shard.termItems field, ∃ t, x = .ok t)
    (inRange : ∀ id, ∃ split < p.numSplits,
      p.partitioner.splitOf? id p.numSplits = some split)
    {split : Nat} (hsplit : split < p.numSplits) :
    ∃ m, p.mergeSplit split = .ok m ∧ m.items = (p.descriptors.filter fun d =>
      p.partitioner.splitOf? d.id p.numSplits = some split).map .ok := by
  rw [mergeSplit, if_neg (Nat.not_le.mpr hsplit)]
  by_cases single : p.numSplits = 1
  · refine ⟨p.mergeAll, if_pos single, ?_⟩
    have all : p.descriptors.filter (fun d =>
        p.partitioner.splitOf? d.id p.numSplits = some split) = p.descriptors := by
      refine List.filter_eq_self.mpr fun d _ => decide_eq_true ?_
      obtain ⟨i, hi, hid⟩ := inRange d.id
      rw [hid, show i = split by omega]
    rw [all]
    exact reads.items_mergeOf sound none
  · refine ⟨_, if_neg single, ?_⟩
    rw [reads.items_mergeOf sound, entries_share, collect_filter]
    rfl

/-- The descriptors of one id list the terms of the id in all shards, each under its shard's
number. -/
theorem Reads.postings_of_mem (reads : p.Reads field shards) {d : Descriptor}
    (h : d ∈ p.descriptors) : d.postings = shards.zipIdx.flatMap fun (shard, i) =>
      ((shard.terms field).filter (·.id = d.id)).map (Posting.ofTerm · i.toUInt32) := by
  rw [(Merge.isMergeOf_collect (p.mergeSources none)).postings d h, List.flatMap_map]
  refine reads.flatMap_mergeSources fun i shard cursor hs _ => ?_
  have whole : (⟨cursor, none⟩ : SplitTerms Cursor).remaining = shard.terms field := by
    rw [Shard.terms, ← reads.toList_cursor hs]
    exact List.filter_eq_self.mpr fun _ _ => rfl
  rw [whole]

/-- Over sound term files, and for any partitioner that keeps to its range, the splits of a field
divide the descriptors of all its terms among them. -/
theorem splits_divide_merge {numSplits opening : Nat} {partitioner : Partitioner}
    (made : ofShards shards field numSplits partitioner opening = .ok p)
    (inRange : ∀ id, ∃ split < numSplits, partitioner.splitOf? id numSplits = some split)
    (sound : ∀ shard ∈ shards, ∀ x ∈ shard.termItems field, ∃ t, x = .ok t) :
    ∃ (all : List Descriptor) (part : Nat → List Descriptor),
      p.mergeAll.items = all.map .ok ∧ (all.map (·.id)).Pairwise (· < ·) ∧
      (∀ split < numSplits, ∃ m, p.mergeSplit split = .ok m ∧ m.items = (part split).map .ok) ∧
      (∀ split < numSplits, part split =
        all.filter fun d => partitioner.splitOf? d.id numSplits = some split) ∧
      (∀ split < numSplits, ∀ other < numSplits, split ≠ other →
        ∀ d ∈ part split, ∀ e ∈ part other, d.id ≠ e.id) ∧
      ((List.range numSplits).flatMap part).Perm all ∧
      (∀ d ∈ all, d.postings = shards.zipIdx.flatMap fun (shard, i) =>
        ((shard.terms field).filter (·.id = d.id)).map (Posting.ofTerm · i.toUInt32)) ∧
      ∀ (i : Nat) (shard : Shard), shards[i]? = some shard →
        p.shard? i.toUInt32 = some shard := by
  obtain ⟨_, rfl, rfl, few, _, shards_eq, cursors⟩ := ofShards_ok made
  have reads : p.Reads field shards := ⟨shards_eq, few, cursors⟩
  have ascending := (Merge.isMergeOf_collect (p.mergeSources none)).ascending
  refine ⟨p.descriptors, fun split => p.descriptors.filter fun d =>
    p.partitioner.splitOf? d.id p.numSplits = some split, reads.items_mergeOf sound none,
    ascending, fun split hsplit => reads.items_mergeSplit sound inRange hsplit, fun _ _ => rfl,
    ?_, ?_, fun d hd => reads.postings_of_mem hd, fun i shard hi => reads.shard?_eq hi⟩
  · intro split _ other _ hne d hd e he hid
    simp only [List.mem_filter, decide_eq_true_eq] at hd he
    rw [hid] at hd
    exact hne (Option.some.inj (hd.2.symm.trans he.2))
  · have distinct : p.descriptors.Nodup := by
      refine (List.pairwise_map.mp ascending).imp fun hlt heq => ?_
      rw [heq] at hlt
      exact Std.lt_irrefl hlt
    exact perm_of_parts distinct fun d _ => inRange d.id

end Splits

/-- Two shards of an int field: ids 1 (two terms), 2 and ids 1, 3. -/
def sampleShards : List Shard :=
  [⟨"a", ["x"], [], [⟨"x", .int, .owned [1, 0, 1, 0, 1, 1, 1, 1, 1], .empty⟩], Shard.noTable⟩,
    ⟨"b", ["x"], [], [⟨"x", .int, .owned [1, 0, 2, 2, 2, 1], .empty⟩], Shard.noTable⟩]

/-- Two splits by the remainder. -/
def sampleProvider : Provider :=
  (ofShards sampleShards "x" 2 .modulo 0).toOption.getD default

theorem splits_divide_merge_sample :
    ofShards sampleShards "x" 2 .modulo 0 = .ok sampleProvider ∧
      (∀ id, ∃ split < 2, Partitioner.modulo.splitOf? id 2 = some split) ∧
      (∀ shard ∈ sampleShards, ∀ x ∈ shard.termItems "x", ∃ t, x = .ok t) ∧
      ∃ (all : List Descriptor) (part : Nat → List Descriptor),
        sampleProvider.mergeAll.items = all.map .ok ∧
        part 0 = [.ofPostings (.int 2) [⟨2, 1, 0⟩]] ∧
        part 1 = [.ofPostings (.int 1) [⟨0, 1, 0⟩, ⟨1, 1, 0⟩, ⟨0, 2, 1⟩],
          .ofPostings (.int 3) [⟨2, 1, 1⟩]] ∧
        ((List.range 2).flatMap part).Perm all := by
  have made : ofShards sampleShards "x" 2 .modulo 0 = .ok sampleProvider := by rfl
  have inRange : ∀ id, ∃ split < 2, Partitioner.modulo.splitOf? id 2 = some split :=
    fun id => PartitionRule.modulo.exists_splitOf? id (by decide) (by decide)
  have sound : ∀ shard ∈ sampleShards, ∀ x ∈ shard.termItems "x", ∃ t, x = .ok t := by
    have all : ∀ shard ∈ sampleShards, ∀ x ∈ shard.termItems "x", x.isOk := by decide +kernel
    exact fun shard hs x hx => exists_of_isOk (all shard hs x hx)
  obtain ⟨all, part, hall, _, _, hpart, _, hperm, _⟩ := splits_divide_merge made inRange sound
  have whole : all = beforeFault sampleProvider.mergeAll.items := by
    rw [hall, beforeFault_map_ok]
  refine ⟨made, inRange, sound, all, part, hall, ?_, ?_, hperm⟩
  · rw [hpart 0 (by decide), whole]
    decide +kernel
  · rw [hpart 1 (by decide), whole]
    decide +kernel

end Provider

end TermStats
