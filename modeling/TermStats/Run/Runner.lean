import TermStats.Run.Context
import TermStats.Run.SplitTask
import TermStats.Run.Workers

/-!
Runs: one task for each field and split, with the socket of its stream. The tasks may
finish in any order; the order decides which failure is reported and nothing else.
-/

namespace TermStats

structure Runner where
  settings : Settings
  shards : List Shard
  slots : List SocketSlot
  deriving Inhabited

namespace Runner

def ofContext (c : RunContext) : Runner :=
  ⟨c.settings, c.shards, c.sockets.map (⟨·, false⟩)⟩

def provider (r : Runner) (field : String × Nat) : Except Error Provider :=
  Provider.ofShards r.shards field.1 r.settings.numSplits
    r.settings.partitionRule.partitioner field.2

def taskFor (r : Runner) (p : Provider) (split : Nat) : SplitTask where
  provider := p
  split := split
  numGroups := r.settings.numGroups
  numStats := r.settings.numStats
  binary := r.settings.binaryMetrics
  bufferSize := r.settings.writerBufferSize

/-- A task in the hands of the workers, with the number of its stream and the slot found there. -/
structure Job where
  stream : Nat
  task : SplitTask
  slot : SocketSlot
  deriving Inhabited

/-- The providers of the fields, in their order. -/
def providers (r : Runner) : Except Error (List Provider) :=
  (r.settings.fields.map (·.1)).zipIdx.mapM r.provider

/-- Hands over the tasks of a field, `left` of them from `split` on. A stream that has no slot is a
panic; the tasks before it are with the workers by then. -/
def enqueueSplits (r : Runner) (p : Provider) (field : Nat) :
    (left split : Nat) → List Job → Attempt (List Job)
  | 0, _, jobs => (.ok (), jobs)
  | left + 1, split, jobs =>
      let i := r.settings.streamIndex field split
      match r.slots[i]? with
      | none => (.error (.panic (.ofText (TableFault.index i r.slots.length).message)), jobs)
      | some slot =>
          r.enqueueSplits p field left (split + 1) (jobs ++ [⟨i, r.taskFor p split, slot⟩])

/-- Hands over the tasks of a field, given with its index. -/
def enqueueField (r : Runner) (jobs : List Job) (field : Provider × Nat) : Attempt (List Job) :=
  r.enqueueSplits field.1 field.2 r.settings.numSplits 0 jobs

/-- Hands over the tasks of all fields. -/
def enqueueAll (r : Runner) (providers : List Provider) : Attempt (List Job) :=
  .each r.enqueueField [] providers.zipIdx

/-- Puts the slots back that the jobs leave behind. -/
def putBack (slots : List SocketSlot) (outcomes : List (Nat × Attempt SocketSlot)) :
    List SocketSlot :=
  outcomes.foldl (fun slots (i, o) => slots.set i o.2) slots

/-- Runs all tasks, which finish in the given order of stream numbers. Tasks that are with the
workers run to their ends also when there is a panic before the others are. -/
def runInOrder (r : Runner) (order : List Nat) : Attempt Runner :=
  match r.providers with
  | .error e => (.error (.error e), r)
  | .ok providers =>
      let (handedOver, jobs) := r.enqueueAll providers
      let outcomes := jobs.map fun job => (job.stream, job.task.run job.slot)
      let results := order.filterMap fun i => (outcomes.lookup i).map fun o => catchPanic o.1
      (handedOver.bind fun _ => (Barrier.outcome results).mapError .error,
        { r with slots := putBack r.slots outcomes })

/-- Runs all tasks one after another. -/
def run (r : Runner) : Attempt Runner :=
  r.runInOrder (List.range r.slots.length)

end Runner
end TermStats
