import TermStats.Proofs.Run.Checked
import TermStats.Proofs.Run.SplitRecords
import TermStats.Proofs.Run.Streams
import TermStats.Proofs.Shard.Provider
import TermStats.Run.Runner

/-!
The tasks of a run, one for each field and split, with those of a field next to each other. They can
be made whenever the number of shards is one that postings can name, and each does the work of its
split.
-/

namespace TermStats

open Result

namespace Runner

/-- The tasks of all fields and splits, whether their streams fit or not. -/
def tasks (r : Runner) : Except Error (List SplitTask) :=
  r.providers.map fun providers =>
    providers.flatMap fun p => (List.range r.settings.numSplits).map (r.taskFor p)

/-- The runner has the settings and the shards of a context. -/
structure Of (c : RunContext) (r : Runner) : Prop where
  settings : r.settings = c.settings
  shards : r.shards = c.shards
  slots : r.slots.length = c.settings.numStreams

variable {c : RunContext} {r : Runner} {tasks : List SplitTask}

theorem length_tasks (of : r.Of c) (h : r.tasks = .ok tasks) :
    tasks.length = c.settings.numFields * c.settings.numSplits := by
  obtain ⟨providers, hproviders, rfl⟩ := map_eq_ok.mp h
  rw [length_blocks, (getElem?_of_mapM hproviders).1, List.length_zipIdx, List.length_map,
    Settings.length_fields, of.settings]

/-- The task of a field's split does the work of that split. -/
theorem task_serves (checked : c.Checked) (of : r.Of c) (h : r.tasks = .ok tasks) {f split : Nat}
    {field : String × TermKind} (hf : c.settings.fields[f]? = some field)
    (hs : split < c.settings.numSplits) :
    ∃ t, tasks[f * c.settings.numSplits + split]? = some t ∧ t.Serves c field.1 split ∧
      t.provider.kind = field.2 ∧ t.bufferSize = c.settings.writerBufferSize := by
  obtain ⟨providers, hproviders, rfl⟩ := map_eq_ok.mp h
  have named : (r.settings.fields.map (·.1)).zipIdx[f]? = some (field.1, f) := by
    rw [of.settings, List.getElem?_zipIdx, List.getElem?_map, hf]
    simp
  obtain ⟨p, hp, hprovider⟩ := (getElem?_of_mapM hproviders).2 f _ named
  obtain ⟨hfield, hsplits, hpartitioner, hfew, ⟨shard, hshard, files, hfiles, hkind⟩, hshards,
    hcursors⟩ := Provider.ofShards_ok hprovider
  refine ⟨r.taskFor p split, ?_, ?_, ?_, ?_⟩
  · rw [of.settings]
    exact getElem?_blocks r.taskFor hp hs
  · rw [of.settings] at hsplits hpartitioner
    rw [of.shards] at hshards hfew
    exact ⟨hfield, rfl, hs, hsplits, hpartitioner, congrArg (·.numGroups) of.settings,
      congrArg (·.numStats) of.settings, congrArg (·.binaryMetrics) of.settings, hshards, hfew,
      hcursors⟩
  · rw [of.shards] at hshard
    obtain ⟨found, hfound, hof⟩ := checked.fields shard hshard field (List.mem_of_getElem? hf)
    rw [hfiles] at hfound
    cases hfound
    exact hkind.symm.trans hof
  · exact congrArg (·.writerBufferSize) of.settings

/-- The task of a field's split is at the index of its stream. -/
theorem task_of_hasStream (checked : c.Checked) (of : r.Of c) (ht : r.tasks = .ok tasks)
    {f split : Nat} {field : String × TermKind} (hf : c.settings.fields[f]? = some field)
    (hs : split < c.settings.numSplits) (has : c.settings.HasStream f split) :
    ∃ t, tasks[c.settings.streamIndex f split]? = some t ∧ t.Serves c field.1 split ∧
      t.provider.kind = field.2 ∧ t.bufferSize = c.settings.writerBufferSize := by
  rw [has.streamIndex_eq]
  exact task_serves checked of ht hf hs

/-- With few enough shards the tasks are made. -/
theorem tasks_ok (checked : c.Checked) (of : r.Of c) (few : c.shards.length < UInt32.size) :
    ∃ tasks, r.tasks = .ok tasks := by
  have some_shards : c.shards ≠ [] := by
    intro hnil
    have := checked.shardCount
    rw [hnil] at this
    exact checked.valid.dirs (List.length_eq_zero_iff.mp this.symm)
  have made : ∀ named ∈ (r.settings.fields.map (·.1)).zipIdx,
      ∃ p, r.provider named = .ok p := by
    rintro ⟨name, i⟩ hnamed
    have hname : name ∈ r.settings.fields.map (·.1) := List.fst_mem_of_mem_zipIdx hnamed
    obtain ⟨field, hfield, rfl⟩ := List.mem_map.mp hname
    rw [of.settings] at hfield
    rw [provider, of.settings, of.shards]
    exact Provider.ofShards_of_kind checked.valid.splits some_shards few
      (fun shard hs => checked.fields shard hs field hfield) _ _
  obtain ⟨ps, hps⟩ := mapM_ok_of_forall made
  refine ⟨ps.flatMap fun p => (List.range r.settings.numSplits).map (r.taskFor p), ?_⟩
  rw [Runner.tasks, providers, hps]
  rfl

end Runner
end TermStats
