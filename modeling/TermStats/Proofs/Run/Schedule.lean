import Mathlib.Data.List.Basic
import TermStats.Proofs.Run.Runs

/-!
Runs task by task. The tasks of a run take their slots out of one list and put them back into it;
each has a slot of its own, so the order in which they run makes no difference to any of them.
-/

namespace TermStats

/-- A run under way: the slots of all streams, and the outcomes of the tasks that have finished. -/
structure Progress where
  slots : List SocketSlot
  finished : List (Nat × Except Error Unit)

namespace Progress

/-- What the task of a stream comes to on the slot it finds. -/
def attempt? (tasks : List SplitTask) (slots : List SocketSlot) (i : Nat) :
    Option (Attempt SocketSlot) :=
  match tasks[i]?, slots[i]? with
  | some task, some slot => some (task.run slot)
  | _, _ => none

/-- The task of a stream runs from beginning to end. -/
def step (tasks : List SplitTask) (p : Progress) (i : Nat) : Progress :=
  match attempt? tasks p.slots i with
  | some (x, slot) => ⟨p.slots.set i slot, p.finished ++ [(i, catchPanic x)]⟩
  | none => p

variable {tasks : List SplitTask}

theorem attempt?_congr {slots slots' : List SocketSlot} {i : Nat} (same : slots'[i]? = slots[i]?) :
    attempt? tasks slots' i = attempt? tasks slots i := by
  rw [attempt?, attempt?, same]

theorem attempt?_eq (r : Runner) (i : Nat) : attempt? tasks r.slots i = (r.outcomes tasks)[i]? := by
  rw [attempt?, Runner.getElem?_outcomes]
  cases tasks[i]? with
  | none => rfl
  | some task => cases r.slots[i]? <;> rfl

theorem slots_step_of_ne (p : Progress) {i j : Nat} (h : j ≠ i) :
    (p.step tasks i).slots[j]? = p.slots[j]? := by
  rw [step]
  split
  · exact List.getElem?_set_ne h.symm
  · rfl

theorem slots_step_self {p : Progress} {i : Nat} {o : Attempt SocketSlot}
    (h : attempt? tasks p.slots i = some o) : (p.step tasks i).slots[i]? = some o.2 := by
  have inRange : i < p.slots.length := by
    rw [attempt?] at h
    split at h
    · rename_i found
      exact (List.getElem?_eq_some_iff.mp found).1
    · cases h
  rw [step, h]
  exact List.getElem?_set_self inRange

/-- Tasks that run one after another: each finds its slot as it was, and leaves the others alone. -/
theorem foldl_step (tasks : List SplitTask) {order : List Nat} (distinct : order.Nodup)
    (p : Progress) :
    (∀ j, j ∉ order → (order.foldl (step tasks) p).slots[j]? = p.slots[j]?) ∧
      (∀ j ∈ order, ∀ o ∈ attempt? tasks p.slots j,
        (order.foldl (step tasks) p).slots[j]? = some o.2) ∧
      (order.foldl (step tasks) p).finished = p.finished ++ order.filterMap fun j =>
        (attempt? tasks p.slots j).map fun o => (j, catchPanic o.1) := by
  induction order generalizing p with
  | nil => exact ⟨fun _ _ => rfl, nofun, (List.append_nil _).symm⟩
  | cons i rest ih =>
      obtain ⟨fresh, distinct⟩ := List.nodup_cons.mp distinct
      obtain ⟨others, own, finished⟩ := ih distinct (p.step tasks i)
      -- The tasks after this one still find what they would have found before it.
      have later : ∀ j ∈ rest, attempt? tasks (p.step tasks i).slots j =
          attempt? tasks p.slots j := fun j hj =>
        attempt?_congr (slots_step_of_ne p fun same => fresh (same ▸ hj))
      refine ⟨fun j hj => ?_, fun j hj o ho => ?_, ?_⟩
      · obtain ⟨hne, hrest⟩ := not_or.mp (mt List.mem_cons.mpr hj)
        exact (others j hrest).trans (slots_step_of_ne p hne)
      · rcases List.mem_cons.mp hj with rfl | hj
        · exact (others j fresh).trans (slots_step_self ho)
        · exact own j hj o (later j hj ▸ ho)
      · have now : (p.step tasks i).finished = p.finished ++
            ((attempt? tasks p.slots i).map fun o => (i, catchPanic o.1)).toList := by
          rw [step]
          cases attempt? tasks p.slots i with
          | none => exact (List.append_nil _).symm
          | some o => rfl
        rw [List.foldl_cons, finished, now, List.append_assoc]
        refine congrArg (p.finished ++ ·) ?_
        rw [List.filterMap_cons, List.filterMap_congr fun j hj => congrArg _ (later j hj)]
        cases attempt? tasks p.slots i <;> rfl

end Progress

namespace Runner

variable {c : RunContext} {r : Runner} {tasks : List SplitTask} {order : List Nat}

/-- The run whose tasks run one after another, in the given order of their streams. -/
def progress (r : Runner) (order : List Nat) : Except Error Progress :=
  r.tasks.map fun tasks => order.foldl (Progress.step tasks) ⟨r.slots, []⟩

/-- Tasks that run one after another make of a runner what its run makes of it. -/
theorem runInOrder_eq_progress (of : r.Of c) (ht : r.tasks = .ok tasks)
    (perm : order.Perm (List.range r.slots.length)) :
    ∃ p, r.progress order = .ok p ∧ r.runInOrder order =
      (if c.settings.StreamsFit then (Barrier.outcome (p.finished.map (·.2))).mapError .error
        else .error r.noSlot, { r with slots := p.slots }) := by
  obtain ⟨others, own, finished⟩ :=
    Progress.foldl_step tasks (perm.nodup_iff.mpr List.nodup_range) ⟨r.slots, []⟩
  refine ⟨_, by rw [progress, ht]; rfl, ?_⟩
  rw [runInOrder_eq of ht, finished, List.nil_append, List.map_filterMap]
  have results : (order.filterMap fun i =>
      (r.outcomes tasks)[i]?.map fun o => catchPanic o.1) = order.filterMap fun i =>
      ((Progress.attempt? tasks r.slots i).map fun o => (i, catchPanic o.1)).map (·.2) := by
    refine List.filterMap_congr fun i _ => ?_
    rw [Progress.attempt?_eq, Option.map_map]
    rfl
  have slots : (r.outcomes tasks).map (·.2) =
      (order.foldl (Progress.step tasks) ⟨r.slots, []⟩).slots := by
    refine List.ext_getElem? fun i => ?_
    rw [List.getElem?_map, ← Progress.attempt?_eq]
    by_cases hi : i < r.slots.length
    · have enough : i < tasks.length := Nat.lt_of_lt_of_le hi (length_slots_le of ht)
      have found : Progress.attempt? tasks r.slots i = some (tasks[i].run r.slots[i]) := by
        rw [Progress.attempt?, List.getElem?_eq_getElem hi, List.getElem?_eq_getElem enough]
      rw [found, own i (perm.mem_iff.mpr (List.mem_range.mpr hi)) _ found]
      rfl
    · have absent : r.slots[i]? = none := List.getElem?_eq_none (Nat.le_of_not_lt hi)
      have idle : Progress.attempt? tasks r.slots i = none := by
        rw [Progress.attempt?, absent]
        cases tasks[i]? <;> rfl
      rw [idle, others i (mt perm.mem_iff.mp (mt List.mem_range.mp hi))]
      exact absent.symm
  rw [results, slots]

end Runner
end TermStats
