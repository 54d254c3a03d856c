import TermStats.Fault

/-!
Workers behind a completion barrier. Tasks finish in any order; waiting is possible
once none is pending, and reports the error of the first that failed, once. A failed
task never cancels another.
-/

namespace TermStats

/-- What the workers have still to do, and the first error since the last wait. -/
structure Barrier where
  pending : Nat
  firstError : Option Error
  deriving Repr, DecidableEq, Inhabited

namespace Barrier

def idle : Barrier := ⟨0, none⟩

def enqueue (b : Barrier) : Barrier :=
  { b with pending := b.pending + 1 }

/-- One pending task has finished. -/
def finish (b : Barrier) (result : Except Error Unit) : Barrier :=
  match result with
  | .ok _ => { b with pending := b.pending - 1 }
  | .error e => ⟨b.pending - 1, b.firstError.or (some e)⟩

/-- The outcome of all tasks since the last wait, unless some are still pending. -/
def await? (b : Barrier) : Option (Except Error Unit × Barrier) :=
  if b.pending = 0 then
    match b.firstError with
    | none => some (.ok (), b)
    | some e => some (.error e, { b with firstError := none })
  else none

/-- Enqueues one task for each result, and finishes them in the order given. -/
def complete (b : Barrier) (results : List (Except Error Unit)) : Barrier :=
  results.foldl finish (results.foldl (fun b _ => b.enqueue) b)

/-- What a wait for tasks with these results reports. -/
def outcome (results : List (Except Error Unit)) : Except Error Unit :=
  match (idle.complete results).await? with
  | some (x, _) => x
  | none => .ok ()

end Barrier

/-- Workers between two waits, when nothing is pending. -/
structure WorkerPool where
  numWorkers : Nat
  /-- Tasks run so far. -/
  started : Nat
  deriving Repr, DecidableEq, Inhabited

namespace WorkerPool

def ofCount (numWorkers : Nat) : Except Error WorkerPool := do
  requireArgument (0 < numWorkers) "num_workers" "num_workers > 0"
  return ⟨numWorkers, 0⟩

/-- Runs tasks to their ends, in the order given, and waits for them. -/
def runAll (p : WorkerPool) (tasks : List (Except Fault Unit)) :
    Except Error Unit × WorkerPool :=
  (Barrier.outcome (tasks.map catchPanic), { p with started := p.started + tasks.length })

def debugText (p : WorkerPool) : String :=
  s!"ExecutorService \x7b num_workers: {p.numWorkers}, .. \x7d"

end WorkerPool
end TermStats
