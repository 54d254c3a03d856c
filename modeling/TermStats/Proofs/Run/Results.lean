import TermStats.Proofs.Run.Delivered
import TermStats.Proofs.Run.Runs

/-!
What a successful run has sent: on every stream the records of the reference. Each stream is that of
one task, and a run that succeeds is one in which every task did.
-/

namespace TermStats

open Result
open Wire (TermRecord decodeStream)

namespace RunContext

variable {c : RunContext} {name : String}

end RunContext

namespace Runner

variable {c : RunContext} {r : Runner} {tasks : List SplitTask}

/-- The task of a stream, with its slot before and after a run. -/
theorem stream_of_run (checked : c.Checked) (of : r.Of c) (ht : r.tasks = .ok tasks)
    (order : List Nat) {f split : Nat} {field : String × TermKind}
    (hf : c.settings.fields[f]? = some field) (hs : split < c.settings.numSplits)
    (has : c.settings.HasStream f split) :
    ∃ t before, tasks[c.settings.streamIndex f split]? = some t ∧
      r.slots[c.settings.streamIndex f split]? = some before ∧
      (r.runInOrder order).2.slots[c.settings.streamIndex f split]? = some (t.run before).2 ∧
      t.Serves c field.1 split ∧ t.provider.kind = field.2 ∧
      t.bufferSize = c.settings.writerBufferSize := by
  obtain ⟨t, htask, serves, kind, size⟩ := task_of_hasStream checked of ht hf hs has
  have inRange : c.settings.streamIndex f split < r.slots.length :=
    of.slots.symm ▸ has.streamIndex_lt
  refine ⟨t, _, htask, List.getElem?_eq_getElem inRange, ?_, serves, kind, size⟩
  exact slot_of_run of order ht htask (List.getElem?_eq_getElem inRange)

/-- Two splits of a field that is in two shards. -/
def sampleSettings : Settings :=
  { Settings.initial 1 with
    shardDirs := ["a", "b"], intFields := ["x"], numGroups := 3, numStats := 1, numSplits := 2,
    partitionRule := .modulo }

/-- Id 2 has documents 0 and 1 of the first shard and 0 of the second, id 3 has document 2 of the
first. -/
def sampleFiles : FileTree :=
  (((FileTree.empty.provide "a/fld-x.intterms" [2, 0, 2, 1, 2, 1]).provide "a/fld-x.intdocs"
    [0, 1, 2]).provide "b/fld-x.intterms" [2, 0, 1]).provide "b/fld-x.intdocs" [0]

def sampleTables : List PackedTable :=
  [(MemoryTable.ofRows 1 [(2, [10]), (0, [20]), (1, [30])]).packed,
    (MemoryTable.ofRows 1 [(2, [40])]).packed]

def sampleSockets : List Socket :=
  List.replicate 2 (Socket.ofBehaviour .reliable)

def sampleInputs : Except Error RunContext × MapCache :=
  RunContext.ofInputs sampleSettings sampleTables sampleSockets sampleFiles .empty

def sampleContext : RunContext :=
  sampleInputs.1.toOption.getD default

end Runner
end TermStats
