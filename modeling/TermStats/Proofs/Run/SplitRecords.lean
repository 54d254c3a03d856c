import TermStats.Proofs.Run.TaskStream
import TermStats.Proofs.Shard.Provider

/-!
The records of a task are those of the reference. Its merge holds the postings of the split's ids,
whose documents are those of all shards, so each descriptor has the record of its id; the merge has
a fault when the term file of any shard has one.
-/

namespace TermStats

open Wire (TermRecord)

theorem toUInt64_toInt64 {f : Int32} (h : 0 ≤ f.toInt) :
    f.toInt64.toUInt64 = f.toInt.toNat.toUInt64 := by
  have value : f.toInt64 = Int64.ofNat f.toInt.toNat := by
    rw [← Int64.ofInt_toInt f.toInt64, Int32.toInt_toInt64, ← Int.toNat_of_nonneg h]
    rfl
  rw [value]
  exact Int64.toUInt64_ofNat'

theorem Descriptor.totalFreq_toUInt64 {d : Descriptor} (h : ∀ p ∈ d.postings, 0 ≤ p.freq.toInt) :
    d.totalFreq.toUInt64 = (d.postings.map fun p : Posting => p.freq.toInt.toNat).sum.toUInt64 := by
  have sums : ∀ (ps : List Posting) (start : Int64), (∀ p ∈ ps, 0 ≤ p.freq.toInt) →
      (ps.foldl (fun sum p => sum + p.freq.toInt64) start).toUInt64 =
        start.toUInt64 + (ps.map fun p : Posting => p.freq.toInt.toNat).sum.toUInt64 := by
    intro ps
    induction ps with
    | nil =>
        intro start _
        exact (UInt64.add_zero _).symm
    | cons p rest ih =>
        intro start h
        obtain ⟨hp, hrest⟩ := List.forall_mem_cons.mp h
        rw [List.foldl_cons, ih _ hrest, Int64.toUInt64_add, toUInt64_toInt64 hp, List.map_cons,
          List.sum_cons, UInt64.add_assoc]
        exact congrArg _ (UInt64.ofNat_add _ _).symm
  rw [totalFreq, freqs_eq, List.foldl_map, sums d.postings 0 h]
  exact UInt64.zero_add _

/-- The task does the work of one split of a field in a run. -/
structure SplitTask.Serves (t : SplitTask) (c : RunContext) (name : String) (split : Nat) :
    Prop where
  field : t.field = name
  split_eq : t.split = split
  inRange : split < c.settings.numSplits
  numSplits : t.provider.numSplits = c.settings.numSplits
  partitioner : t.provider.partitioner = c.settings.partitionRule.partitioner
  numGroups : t.numGroups = c.settings.numGroups
  numStats : t.numStats = c.settings.numStats
  binary : t.binary = c.settings.binaryMetrics
  shards : t.provider.sources.map (·.1) = c.shards
  few : c.shards.length < UInt32.size
  cursors : ∀ source ∈ t.provider.sources, ∃ files opening, source.1.field name = .ok files ∧
    source.2 = .ofFile ⟨opening, source.1.directory, name, files.kind, files.terms.bytes⟩

namespace SplitTask.Serves

variable {t : SplitTask} {c : RunContext} {name : String} {split : Nat}

theorem reads (serves : t.Serves c name split) : t.provider.Reads name c.shards :=
  ⟨serves.shards, serves.few, serves.cursors⟩

end SplitTask.Serves

namespace SplitTask

/-- What the merge of the task filters by. -/
def share (t : SplitTask) : Option Share :=
  if t.provider.numSplits = 1 then none
  else some ⟨t.provider.partitioner, t.split, t.provider.numSplits⟩

def mergeSources (t : SplitTask) : List (UInt32 × SplitTerms Cursor) :=
  t.provider.sources.zipIdx.map fun source => (source.2.toUInt32, ⟨source.1.2, t.share⟩)

variable {t : SplitTask} {c : RunContext} {name : String} {split : Nat}

theorem mergeSplit_eq (serves : t.Serves c name split) :
    t.provider.mergeSplit t.split = .ok (.ofSources t.mergeSources) := by
  have inRange : ¬ t.provider.numSplits ≤ t.split := by
    rw [serves.numSplits, serves.split_eq]
    exact Nat.not_le.mpr serves.inRange
  rw [Provider.mergeSplit, if_neg inRange, mergeSources, share]
  split <;> rfl

theorem keeps_eq (serves : t.Serves c name split) (cursor : Cursor) (id : TermId) :
    (⟨cursor, t.share⟩ : SplitTerms Cursor).keeps id = c.inSplit split id := by
  rw [SplitTerms.keeps, share, RunContext.inSplit, serves.numSplits, serves.partitioner,
    serves.split_eq]
  by_cases h : c.settings.numSplits = 1
  · simp [h]
  · simp [h, Share.keeps]

theorem remaining_eq (serves : t.Serves c name split) {shard : Shard} {cursor : Cursor}
    (h : (shard, cursor) ∈ t.provider.sources) :
    (⟨cursor, t.share⟩ : SplitTerms Cursor).remaining =
      (shard.terms name).filter (c.inSplit split ·.id) := by
  rw [SplitTerms.remaining, Shard.terms, ← serves.reads.toList_cursor h]
  exact List.filter_congr fun term _ => keeps_eq serves cursor term.id

/-- Gathering from the sources is gathering from the shards, where a source gives what its shard
does. -/
theorem flatMap_mergeSources (serves : t.Serves c name split) {β : Type}
    {f : UInt32 × SplitTerms Cursor → List β} {g : Shard → List β}
    (h : ∀ (i : Nat) (shard : Shard) (cursor : Cursor), (shard, cursor) ∈ t.provider.sources →
      t.provider.shard? i.toUInt32 = some shard → f (i.toUInt32, ⟨cursor, t.share⟩) = g shard) :
    t.mergeSources.flatMap f = c.shards.flatMap g := by
  have shards : c.shards.zipIdx.flatMap (fun s => g s.1) = c.shards.flatMap g := by
    have pairs := congrArg (List.flatMap g) (List.zipIdx_map_fst 0 c.shards)
    rwa [List.flatMap_map] at pairs
  have gathered : (t.provider.mergeSources t.share).flatMap f =
      c.shards.zipIdx.flatMap fun s => g s.1 := serves.reads.flatMap_mergeSources h
  exact gathered.trans shards

/-- The descriptors of the merge, when nothing is amiss in the term files. -/
def descriptors (t : SplitTask) : List Descriptor :=
  collect (Merge.ofSources t.mergeSources).entries

theorem ids_descriptors (serves : t.Serves c name split) :
    t.descriptors.map (·.id) = c.splitIds name split := by
  have entries : (Merge.ofSources t.mergeSources).entries.map (·.1) =
      (c.shards.flatMap fun s => (s.terms name).map (·.id)).filter (c.inSplit split) := by
    rw [Merge.entries_ofSources, List.map_flatMap, List.filter_flatMap]
    refine flatMap_mergeSources serves fun i shard cursor h _ => ?_
    simp only [remaining_eq serves h, List.map_map, List.filter_map]
    rfl
  rw [descriptors, collect, List.map_map, entries, RunContext.splitIds, RunContext.ids,
    filter_distinct]
  exact List.map_id _

theorem postings_of_mem {d : Descriptor} (h : d ∈ t.descriptors) :
    d.postings = t.mergeSources.flatMap fun s =>
      (s.2.remaining.filter (·.id = d.id)).map (Posting.ofTerm · s.1) :=
  Merge.postings_of_mem h

/-- The terms of an id of the split are all its terms. -/
theorem remaining_of_mem (serves : t.Serves c name split) {d : Descriptor}
    (h : d ∈ t.descriptors) {shard : Shard} {cursor : Cursor}
    (source : (shard, cursor) ∈ t.provider.sources) :
    (⟨cursor, t.share⟩ : SplitTerms Cursor).remaining.filter (·.id = d.id) =
      (shard.terms name).filter (·.id = d.id) := by
  have hid : d.id ∈ c.splitIds name split := by
    rw [← ids_descriptors serves]
    exact List.mem_map_of_mem h
  rw [remaining_eq serves source, List.filter_filter]
  refine List.filter_congr fun term _ => ?_
  by_cases heq : term.id = d.id
  · simp [heq, (List.mem_filter.mp hid).2]
  · simp [heq]

/-- A posting of a descriptor is that of a term in the shard it names. -/
theorem term_of_posting (serves : t.Serves c name split) {d : Descriptor} (h : d ∈ t.descriptors)
    {p : Posting} (hp : p ∈ d.postings) :
    ∃ shard cursor term, (shard, cursor) ∈ t.provider.sources ∧
      t.provider.shard? p.source = some shard ∧
      term ∈ beforeFault (TermSource.toList cursor) ∧ p.address = term.offset ∧
      p.freq = term.freq := by
  rw [postings_of_mem h] at hp
  obtain ⟨source, hsource, hp⟩ := List.mem_flatMap.mp hp
  obtain ⟨⟨⟨shard, cursor⟩, i⟩, hi, rfl⟩ := List.mem_map.mp hsource
  obtain ⟨term, hterm, rfl⟩ := List.mem_map.mp hp
  obtain ⟨mem, hshard⟩ := serves.reads.shard?_of_mem hi
  exact ⟨shard, cursor, term, mem, hshard,
    (List.mem_filter.mp (List.mem_filter.mp hterm).1).1, rfl, rfl⟩

theorem knows_of_mem (serves : t.Serves c name split) {d : Descriptor} (h : d ∈ t.descriptors) :
    ∀ p ∈ d.postings, t.Knows p := by
  intro p hp
  obtain ⟨shard, cursor, _, mem, hshard, _⟩ := term_of_posting serves h hp
  obtain ⟨files, _, hfield, _⟩ := serves.cursors _ mem
  exact ⟨shard, files, hshard, serves.field ▸ hfield⟩

theorem totalFreq_of_mem (serves : t.Serves c name split) {d : Descriptor}
    (h : d ∈ t.descriptors) : d.totalFreq.toUInt64 = (c.docFreq name d.id).toUInt64 := by
  have nonneg : ∀ p ∈ d.postings, 0 ≤ p.freq.toInt := by
    intro p hp
    obtain ⟨shard, cursor, term, mem, _, hterm, _, hfreq⟩ := term_of_posting serves h hp
    rw [hfreq]
    exact Int.le_of_lt (Cursor.mem_toList (serves.reads.reachable_cursor mem).sound hterm).1
  have freqs : d.postings.map (fun p => p.freq.toInt.toNat) =
      (c.termsOf name d.id).map (·.2.freq.toInt.toNat) := by
    rw [postings_of_mem h, RunContext.termsOf, List.map_flatMap, List.map_flatMap]
    refine flatMap_mergeSources serves fun i shard cursor hs _ => ?_
    simp only [remaining_of_mem serves h hs, List.map_map]
    rfl
  rw [Descriptor.totalFreq_toUInt64 nonneg, freqs, RunContext.docFreq]

theorem recordOf_iff (serves : t.Serves c name split) {d : Descriptor} (h : d ∈ t.descriptors)
    (r : TermRecord) : t.recordOf d = .ok r ↔ c.record? name d.id = some r := by
  have documents : d.postings.flatMap t.documentsAt = c.documentsOf name d.id := by
    rw [postings_of_mem h, List.flatMap_assoc, RunContext.documentsOf, RunContext.termsOf,
      List.flatMap_assoc]
    refine flatMap_mergeSources serves fun i shard cursor hs hi => ?_
    simp only [remaining_of_mem serves h hs, List.flatMap_map]
    simp only [documentsAt, Posting.ofTerm, hi, serves.field]
  have reads : t.readDoc = c.readDoc := by
    rw [readDoc, RunContext.readDoc, serves.numGroups, serves.numStats, serves.binary]
  rw [recordOf_eq_ok (knows_of_mem serves h), RunContext.record?, Option.map_eq_some_iff,
    documents, totalFreq_of_mem serves h, reads, serves.numStats]
  exact exists_congr fun samples => and_congr_right fun _ => eq_comm

/-- What a task makes of descriptors, after which the merge may have a fault. -/
theorem output_append {f : Descriptor → Option TermRecord} {ds : List Descriptor}
    {rest : List (Except Error Descriptor)} (hrest : rest = [] ∨ ∃ e, rest = [.error e])
    (h : ∀ d ∈ ds, ∀ r, t.recordOf d = .ok r ↔ f d = some r) :
    (∃ n, (ds.take n).mapM f = some (t.output (ds.map .ok ++ rest)).1) ∧
      ((t.output (ds.map .ok ++ rest)).2 = .ok () ↔ rest = [] ∧ ∀ d ∈ ds, (f d).isSome) ∧
      ((t.output (ds.map .ok ++ rest)).2 = .ok () →
        ds.mapM f = some (t.output (ds.map .ok ++ rest)).1) := by
  induction ds with
  | nil =>
      rcases hrest with rfl | ⟨e, rfl⟩
      · exact ⟨⟨0, rfl⟩, ⟨fun _ => ⟨rfl, nofun⟩, fun _ => rfl⟩, fun _ => rfl⟩
      · exact ⟨⟨0, rfl⟩, ⟨nofun, fun h => nomatch h.1⟩, nofun⟩
  | cons d ds ih =>
      obtain ⟨hd, hds⟩ := List.forall_mem_cons.mp h
      obtain ⟨⟨n, hn⟩, hok, hall⟩ := ih hds
      rw [List.map_cons, List.cons_append, output]
      cases hr : t.recordOf d with
      | error e =>
          have unread : f d = none := by
            cases hf : f d with
            | none => rfl
            | some r =>
                have := (hd r).mpr hf
                rw [hr] at this
                cases this
          refine ⟨⟨0, rfl⟩, ⟨fun hok => ?_, fun all => ?_⟩, fun hok => ?_⟩
          · cases hok
          · have hsome := all.2 d List.mem_cons_self
            rw [unread] at hsome
            cases hsome
          · cases hok
      | ok r =>
          have read : f d = some r := (hd r).mp hr
          refine ⟨⟨n + 1, ?_⟩, ?_, ?_⟩
          · simp [List.take_succ_cons, List.mapM_cons, read, hn]
          · simp [hok, read]
          · intro hx
            simp [List.mapM_cons, read, hall hx]

/-- The records of a task are those of the first ids of the reference. The task comes through when
no term file has a fault and every id has a record, and then they are those of all ids. -/
theorem output_eq (serves : t.Serves c name split) :
    (∃ n, ((c.splitIds name split).take n).mapM (c.record? name) =
        some (t.output (Merge.ofSources t.mergeSources).items).1) ∧
      ((t.output (Merge.ofSources t.mergeSources).items).2 = .ok () ↔
        (∀ shard ∈ c.shards, firstFault? (shard.termItems name) = none) ∧
          ∀ id ∈ c.splitIds name split, (c.record? name id).isSome) ∧
      ((t.output (Merge.ofSources t.mergeSources).items).2 = .ok () →
        (c.splitIds name split).mapM (c.record? name) =
          some (t.output (Merge.ofSources t.mergeSources).items).1) := by
  have ordered : (Merge.ofSources t.mergeSources).Ordered :=
    serves.reads.ordered_mergeSources t.share
  have faultless : (Merge.ofSources t.mergeSources).faults = [] ↔
      ∀ shard ∈ c.shards, firstFault? (shard.termItems name) = none :=
    serves.reads.faults_eq_nil_iff t.share
  have byId : ∀ ds : List Descriptor, ds.mapM (fun d => c.record? name d.id) =
      (ds.map (·.id)).mapM (c.record? name) := by
    intro ds
    rw [List.mapM_map]
    rfl
  by_cases sound : (Merge.ofSources t.mergeSources).faults = []
  · have items : (Merge.ofSources t.mergeSources).items = t.descriptors.map .ok ++ [] := by
      rw [List.append_nil]
      exact Merge.items_eq ordered sound
    obtain ⟨⟨n, hn⟩, hok, hall⟩ := output_append (t := t) (.inl rfl)
      (fun d hd r => recordOf_iff serves (r := r) hd)
    rw [items, ← ids_descriptors serves]
    rw [byId, List.map_take] at hn
    rw [byId] at hall
    refine ⟨⟨n, hn⟩, hok.trans ⟨?_, ?_⟩, hall⟩
    · rintro ⟨_, h⟩
      refine ⟨faultless.mp sound, ?_⟩
      intro id hid
      obtain ⟨d, hd, rfl⟩ := List.mem_map.mp hid
      exact h d hd
    · rintro ⟨_, h⟩
      exact ⟨rfl, fun d hd => h _ (List.mem_map_of_mem hd)⟩
  · obtain ⟨ds, e, hitems, hprefix, _⟩ := Merge.items_of_faults ordered sound
    have members : ∀ d ∈ ds, d ∈ t.descriptors := fun d hd => hprefix.subset hd
    obtain ⟨⟨n, hn⟩, hok, _⟩ := output_append (t := t) (.inr ⟨e, rfl⟩)
      (fun d hd r => recordOf_iff serves (r := r) (members d hd))
    have failed : (t.output (Merge.ofSources t.mergeSources).items).2 ≠ .ok () := by
      rw [hitems]
      exact fun h => nomatch (hok.mp h).1
    have first : ds.map (·.id) = (c.splitIds name split).take ds.length := by
      rw [← ids_descriptors serves, ← List.map_take]
      exact congrArg _ (List.prefix_iff_eq_take.mp hprefix)
    rw [byId, List.map_take, first, List.take_take, ← hitems] at hn
    refine ⟨⟨_, hn⟩, ⟨fun h => absurd h failed, fun h => ?_⟩, fun h => absurd h failed⟩
    exact absurd (faultless.mpr h.1) sound

end SplitTask
end TermStats
