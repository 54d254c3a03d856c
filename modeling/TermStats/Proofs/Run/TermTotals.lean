import TermStats.Proofs.Run.Accumulation
import TermStats.Proofs.Run.Reference
import TermStats.Run.SplitTask

/-!
The record that a task makes of one descriptor. The task reads the posting lists one after another,
and its totals are the sums over the samples of all their documents, whatever the totals were for
before; it has no totals when one of them cannot be read.
-/

namespace TermStats

open Result
open Wire (TermRecord)

namespace SplitTask

/-- The sample of a document, as the task reads it. -/
def readDoc (t : SplitTask) : Document → Option Sample :=
  TermStats.readDoc t.numGroups t.numStats t.binary

/-- The documents of a posting. -/
def documentsAt (t : SplitTask) (p : Posting) : List Document :=
  match t.provider.shard? p.source with
  | some shard => shard.documents t.field p.address p.freq
  | none => []

/-- The posting is of a shard of the task that has the field. -/
def Knows (t : SplitTask) (p : Posting) : Prop :=
  ∃ shard files, t.provider.shard? p.source = some shard ∧ shard.field t.field = .ok files

/-- The sample of a document in a shard, or what adding it fails with. -/
def sampleOf (t : SplitTask) (shard : Shard) : Except PostingFault Int64 → Except Fault Sample
  | .error f => .error (.error
      (.invalidFormat (fieldElement shard.directory t.field) f.toError.message))
  | .ok doc => GroupTotals.rowSample t.numGroups t.numStats t.binary shard.table
      (fieldElement shard.directory t.field) doc

def samplesAt (t : SplitTask) (id : TermId) (p : Posting) : Except Fault (List Sample) :=
  match t.locate id p with
  | .error f => .error f
  | .ok (shard, ids) => ids.items.mapM (t.sampleOf shard)

/-- The samples of a term's documents, or what totalling them fails with. -/
def samplesOf (t : SplitTask) (d : Descriptor) : Except Fault (List Sample) :=
  (d.postings.mapM (t.samplesAt d.id)).map List.flatten

/-- The record of a descriptor, also when none of its documents is in a counted group. -/
def recordOf (t : SplitTask) (d : Descriptor) : Except Fault TermRecord :=
  (t.samplesOf d).map fun samples =>
    ⟨d.id, d.totalFreq.toUInt64, (groupSums t.numStats samples).map fun e => ⟨e.1, e.2⟩⟩

section Read

variable {t : SplitTask}

theorem samplesAt_eq_ok (id : TermId) {p : Posting} (knows : t.Knows p) {samples : List Sample} :
    t.samplesAt id p = .ok samples ↔ (t.documentsAt p).mapM t.readDoc = some samples := by
  obtain ⟨shard, files, hshard, hfield⟩ := knows
  simp only [samplesAt, locate, documentsAt, hshard, hfield, Shard.documents]
  cases DocIds.locate files.docs.bytes p.address p.freq with
  | error f => simp [readDoc, TermStats.readDoc]
  | ok ids =>
      rw [List.mapM_map]
      refine mapM_eq_ok_iff fun item s => ?_
      cases item with
      | error f => simp [sampleOf, readDoc, TermStats.readDoc]
      | ok doc => exact GroupTotals.rowSample_eq_ok

theorem lists_eq_ok {id : TermId} {ps : List Posting} (knows : ∀ p ∈ ps, t.Knows p)
    {samples : List Sample} :
    (∃ lists, ps.mapM (t.samplesAt id) = .ok lists ∧ lists.flatten = samples) ↔
      (ps.flatMap t.documentsAt).mapM t.readDoc = some samples := by
  induction ps generalizing samples with
  | nil => simp [pure, Except.pure]
  | cons p rest ih =>
      obtain ⟨hp, hrest⟩ := List.forall_mem_cons.mp knows
      rw [List.flatMap_cons, mapM_append_eq_some]
      simp only [← ih hrest, ← samplesAt_eq_ok id hp, mapM_cons_eq_ok]
      refine ⟨?_, ?_⟩
      · rintro ⟨_, ⟨first, lists, hfirst, hlists, rfl⟩, rfl⟩
        exact ⟨first, lists.flatten, hfirst, ⟨lists, hlists, rfl⟩, List.flatten_cons⟩
      · rintro ⟨first, _, hfirst, ⟨lists, hlists, rfl⟩, rfl⟩
        exact ⟨first :: lists, ⟨first, lists, hfirst, hlists, rfl⟩, List.flatten_cons⟩

theorem samplesOf_eq_ok {d : Descriptor} (knows : ∀ p ∈ d.postings, t.Knows p)
    {samples : List Sample} : t.samplesOf d = .ok samples ↔
      (d.postings.flatMap t.documentsAt).mapM t.readDoc = some samples := by
  rw [samplesOf, map_eq_ok, lists_eq_ok knows]

theorem recordOf_eq_ok {d : Descriptor} {r : TermRecord} (knows : ∀ p ∈ d.postings, t.Knows p) :
    t.recordOf d = .ok r ↔
      ∃ samples, (d.postings.flatMap t.documentsAt).mapM t.readDoc = some samples ∧
        r = ⟨d.id, d.totalFreq.toUInt64,
          (groupSums t.numStats samples).map fun e => ⟨e.1, e.2⟩⟩ := by
  simp only [recordOf, map_eq_ok, samplesOf_eq_ok knows, @eq_comm _ r]

end Read

section Totals

variable {t : SplitTask} {totals : GroupTotals} {samples : List Sample}

/-- Totals for the task's groups and stats, whatever they were last used for. -/
structure Usable (t : SplitTask) (totals : GroupTotals) : Prop where
  shape : totals.shape = t.noTotals.shape
  clear : totals.ClearBut totals.touched

theorem usable_noTotals (t : SplitTask) : t.Usable t.noTotals :=
  ⟨rfl, (GroupTotals.holds_empty _ _ _ []).toClearBut⟩

/-- Totals of the samples, for the task's groups and stats. -/
structure Totals (t : SplitTask) (totals : GroupTotals) (samples : List Sample) : Prop where
  shape : totals.shape = t.noTotals.shape
  holds : totals.Holds samples

theorem Totals.usable (h : t.Totals totals samples) : t.Usable totals :=
  ⟨h.shape, h.holds.toClearBut⟩

theorem addDoc_yields (h : t.Totals totals samples) (shard : Shard)
    (item : Except PostingFault Int64) :
    Attempt.Yields (fun totals s => t.Totals totals (samples ++ [s]))
      (addDoc shard.table (fieldElement shard.directory t.field) totals item)
      (t.sampleOf shard item) := by
  cases item with
  | error f => rfl
  | ok doc =>
      obtain ⟨hgroups, hstats, hbinary⟩ : totals.numGroups = t.numGroups ∧
          totals.numStats = t.numStats ∧ totals.binary = t.binary := by
        simpa [GroupTotals.shape, noTotals, GroupTotals.empty] using h.shape
      have added := GroupTotals.addRow_yields h.holds shard.table
        (fieldElement shard.directory t.field) doc
      rw [hgroups, hstats, hbinary] at added
      exact added.mono fun totals' s h' => ⟨h'.2.trans h.shape, h'.1⟩

theorem addPosting_yields (h : t.Totals totals samples) (id : TermId) (p : Posting) :
    Attempt.Yields (fun totals more => t.Totals totals (samples ++ more)) (t.addPosting id totals p)
      (t.samplesAt id p) := by
  rw [addPosting, samplesAt]
  cases t.locate id p with
  | error f => rfl
  | ok located =>
      obtain ⟨shard, ids⟩ := located
      refine Attempt.each_yields (fun totals more item _ holds => ?_) ?_
      · simpa only [List.append_assoc] using addDoc_yields holds shard item
      · rwa [List.append_nil]

/-- Totalling a term forgets the term before it. -/
theorem totalTerm_yields (h : t.Usable totals) (d : Descriptor) :
    Attempt.Yields t.Totals (t.totalTerm totals d) (t.samplesOf d) := by
  have start : t.Totals { GroupTotals.empty totals.numGroups totals.numStats totals.binary with
      listing := totals.listing } [] :=
    ⟨h.shape, GroupTotals.holds_empty _ _ _ _⟩
  rw [totalTerm, GroupTotals.clear_eq h.clear, Attempt.andThen_ok, samplesOf]
  have all : Attempt.Yields (fun totals lists => t.Totals totals lists.flatten)
      (Attempt.each (t.addPosting d.id) _ d.postings) (d.postings.mapM (t.samplesAt d.id)) :=
    Attempt.each_yields (fun totals lists p _ holds => by
      simpa only [List.flatten_append, List.flatten_singleton] using
        addPosting_yields holds d.id p) start
  cases hlists : d.postings.mapM (t.samplesAt d.id) with
  | error f =>
      rw [hlists] at all
      exact all
  | ok lists =>
      rw [hlists] at all
      exact all

theorem isEmpty_iff (h : t.Totals totals samples) :
    totals.isEmpty = true ↔ groupSums t.numStats samples = [] := by
  rw [GroupTotals.isEmpty, List.isEmpty_iff, groupSums, List.map_eq_nil_iff,
    List.eq_nil_iff_forall_not_mem, List.eq_nil_iff_forall_not_mem]
  exact forall_congr' fun g => not_congr (h.holds.counted g)

theorem numStats_eq (h : t.Totals totals samples) : totals.numStats = t.numStats := by
  have same := congrArg (·.2.1) h.shape
  exact same

theorem sort_eq (h : t.Totals totals samples) :
    totals.sort = (.ok (), totals.sorted samples) ∧ t.Totals (totals.sorted samples) samples :=
  ⟨GroupTotals.sort_eq h.holds, h.shape, GroupTotals.holds_sorted h.holds⟩

end Totals
end SplitTask
end TermStats
