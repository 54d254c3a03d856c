import TermStats.Proofs.Attempt
import TermStats.Proofs.Run.Tasks

/-!
What is handed over to the workers: the tasks in their order, each with the slot of its stream, up
to the first for which there is no slot. Those that have one run, and no task finds the slot of
another.
-/

namespace TermStats

open Result

theorem lookup_zipIdx {α : Type} (l : List α) (start i : Nat) :
    ((l.zipIdx start).map Prod.swap).lookup (start + i) = l[i]? := by
  induction l generalizing start i with
  | nil => rfl
  | cons a rest ih =>
      rw [List.zipIdx_cons, List.map_cons, Prod.swap_prod_mk, List.lookup_cons]
      cases i with
      | zero => simp
      | succ i =>
          have later : (start + (i + 1) == start) = false := beq_eq_false_iff_ne.mpr (by omega)
          have next := ih (start + 1) i
          rw [later, List.getElem?_cons_succ, ← next, Nat.add_right_comm, Nat.add_assoc]

namespace Runner

variable {c : RunContext} {r : Runner} {tasks : List SplitTask}

/-- Hands over the next task. -/
def handOver (r : Runner) (jobs : List Job) (t : SplitTask) : Attempt (List Job) :=
  match r.slots[jobs.length]? with
  | none =>
      (.error (.panic (.ofText (TableFault.index jobs.length r.slots.length).message)), jobs)
  | some slot => (.ok (), jobs ++ [⟨jobs.length, t, slot⟩])

/-- The panic over the first task without a slot. -/
def noSlot (r : Runner) : Fault :=
  .panic (.ofText (TableFault.index r.slots.length r.slots.length).message)

/-- The jobs of tasks whose streams start at `start`. -/
def jobsFrom (r : Runner) (start : Nat) (tasks : List SplitTask) : List Job :=
  ((tasks.zip (r.slots.drop start)).zipIdx start).map fun ((t, slot), i) => ⟨i, t, slot⟩

theorem length_jobsFrom (r : Runner) (start : Nat) (tasks : List SplitTask) :
    (r.jobsFrom start tasks).length = min tasks.length (r.slots.length - start) := by
  simp [jobsFrom]

theorem enqueueSplits_eq (words : r.slots.length < UInt64.size) (p : Provider) {field left : Nat}
    {split : Nat} {jobs : List Job} (place : jobs.length = field * r.settings.numSplits + split)
    (room : jobs.length ≤ r.slots.length) :
    r.enqueueSplits p field left split jobs =
      Attempt.each r.handOver jobs ((List.range' split left).map (r.taskFor p)) := by
  induction left generalizing split jobs with
  | zero => rfl
  | succ left ih =>
      have index : r.settings.streamIndex field split = jobs.length := by
        rw [Settings.streamIndex, ← place]
        exact Nat.mod_eq_of_lt (Nat.lt_of_le_of_lt room words)
      rw [enqueueSplits, List.range'_succ, List.map_cons, Attempt.each, handOver]
      simp only [index]
      cases found : r.slots[jobs.length]? with
      | none => rfl
      | some slot =>
          have inSlots := (List.getElem?_eq_some_iff.mp found).1
          refine ih ?_ ?_
          · rw [List.length_append, List.length_singleton, place, Nat.add_assoc]
          · rw [List.length_append, List.length_singleton]
            exact inSlots

/-- Tasks are handed over until the slots are used up. -/
theorem each_handOver {jobs : List Job} (room : jobs.length ≤ r.slots.length)
    (tasks : List SplitTask) :
    Attempt.each r.handOver jobs tasks =
      (if jobs.length + tasks.length ≤ r.slots.length then .ok () else .error r.noSlot,
        jobs ++ r.jobsFrom jobs.length tasks) := by
  induction tasks generalizing jobs with
  | nil => simp [Attempt.each, jobsFrom, room]
  | cons t rest ih =>
      rw [Attempt.each, handOver]
      cases found : r.slots[jobs.length]? with
      | none =>
          have full : r.slots.length = jobs.length :=
            Nat.le_antisymm (List.getElem?_eq_none_iff.mp found) room
          have last : ¬ jobs.length + (t :: rest).length ≤ r.slots.length := by
            rw [full, List.length_cons]
            omega
          have nothing : r.jobsFrom jobs.length (t :: rest) = [] := by
            rw [jobsFrom, ← full, List.drop_length, List.zip_nil_right]
            rfl
          rw [if_neg last, nothing, List.append_nil, noSlot, full]
          rfl
      | some slot =>
          obtain ⟨inSlots, here⟩ := List.getElem?_eq_some_iff.mp found
          have length : (jobs ++ [(⟨jobs.length, t, slot⟩ : Job)]).length = jobs.length + 1 := by
            rw [List.length_append, List.length_singleton]
          have first : r.jobsFrom jobs.length (t :: rest) =
              ⟨jobs.length, t, slot⟩ :: r.jobsFrom (jobs.length + 1) rest := by
            rw [jobsFrom, List.drop_eq_getElem_cons inSlots, here]
            rfl
          rw [Attempt.andThen_ok, ih (length ▸ inSlots), length, first, List.append_assoc,
            List.length_cons, Nat.add_assoc, Nat.add_comm 1]
          rfl

theorem enqueueAll_from (words : r.slots.length < UInt64.size) (ps : List Provider) {start : Nat}
    {jobs : List Job} (place : jobs.length = start * r.settings.numSplits)
    (room : jobs.length ≤ r.slots.length) :
    Attempt.each r.enqueueField jobs (ps.zipIdx start) =
      Attempt.each r.handOver jobs
        (ps.flatMap fun p => (List.range r.settings.numSplits).map (r.taskFor p)) := by
  induction ps generalizing start jobs with
  | nil => rfl
  | cons p rest ih =>
      have place' : jobs.length = start * r.settings.numSplits + 0 := place
      rw [List.zipIdx_cons, Attempt.each, enqueueField, enqueueSplits_eq words p place' room,
        List.flatMap_cons, Attempt.each_append, ← List.range_eq_range', each_handOver room,
        List.length_map, List.length_range]
      by_cases fits : jobs.length + r.settings.numSplits ≤ r.slots.length
      · have length : (jobs ++ r.jobsFrom jobs.length
            ((List.range r.settings.numSplits).map (r.taskFor p))).length =
              jobs.length + r.settings.numSplits := by
          rw [List.length_append, length_jobsFrom, List.length_map, List.length_range]
          omega
        rw [if_pos fits, Attempt.andThen_ok, Attempt.andThen_ok]
        refine ih ?_ (length ▸ fits)
        rw [length, place, Nat.succ_mul]
      · rw [if_neg fits]
        rfl

/-- All tasks are handed over if there are as many slots. -/
theorem enqueueAll_eq (words : r.slots.length < UInt64.size) {ps : List Provider}
    (hps : r.providers = .ok ps) (h : r.tasks = .ok tasks) :
    r.enqueueAll ps = (if tasks.length ≤ r.slots.length then .ok () else .error r.noSlot,
      r.jobsFrom 0 tasks) := by
  obtain ⟨_, hps', rfl⟩ := map_eq_ok.mp h
  rw [hps] at hps'
  cases hps'
  have start : ([] : List Job).length = 0 * r.settings.numSplits := (Nat.zero_mul _).symm
  rw [enqueueAll, enqueueAll_from words ps start (Nat.zero_le _), each_handOver (Nat.zero_le _),
    List.length_nil, Nat.zero_add, List.nil_append]

/-- What the tasks that have a slot come to. -/
def outcomes (r : Runner) (tasks : List SplitTask) : List (Attempt SocketSlot) :=
  (tasks.zip r.slots).map fun (task, slot) => task.run slot

theorem map_jobsFrom (r : Runner) (tasks : List SplitTask) :
    ((r.jobsFrom 0 tasks).map fun job => (job.stream, job.task.run job.slot)) =
      ((r.outcomes tasks).zipIdx).map Prod.swap := by
  rw [jobsFrom, outcomes, List.drop_zero, List.zipIdx_map, List.map_map, List.map_map]
  rfl

theorem getElem?_outcomes (r : Runner) (tasks : List SplitTask) (i : Nat) :
    (r.outcomes tasks)[i]? =
      tasks[i]?.bind fun task => r.slots[i]?.map fun slot => task.run slot := by
  rw [outcomes, List.getElem?_map, List.zip, List.getElem?_zipWith]
  cases tasks[i]? with
  | none => rfl
  | some task => cases r.slots[i]? <;> rfl

theorem putBack_zipIdx {slots : List SocketSlot} {outcomes : List (Attempt SocketSlot)}
    {start : Nat} (count : start + outcomes.length = slots.length) :
    putBack slots ((outcomes.zipIdx start).map Prod.swap) =
      slots.take start ++ outcomes.map (·.2) := by
  induction outcomes generalizing slots start with
  | nil =>
      have all : slots.length ≤ start := Nat.le_of_eq count.symm
      rw [List.map_nil, List.append_nil, List.take_of_length_le all]
      rfl
  | cons o rest ih =>
      have inSlots : start < slots.length := by
        rw [← count, List.length_cons]
        omega
      have count' : start + 1 + rest.length = (slots.set start o.2).length := by
        rw [List.length_set, ← count, List.length_cons]
        omega
      have others := ih count'
      rw [putBack] at others ⊢
      rw [List.zipIdx_cons, List.map_cons, List.foldl_cons]
      refine others.trans ?_
      have whole : (slots.take start).length = start :=
        List.length_take_of_le (Nat.le_of_lt inSlots)
      rw [List.take_set, List.take_succ_eq_append_getElem inSlots,
        List.set_append_right _ _ (Nat.le_of_eq whole), whole, Nat.sub_self, List.append_assoc]
      rfl

/-- There is a task for every slot. -/
theorem length_slots_le (of : r.Of c) (h : r.tasks = .ok tasks) :
    r.slots.length ≤ tasks.length := by
  rw [of.slots, length_tasks of h]
  exact c.settings.numStreams_le

/-- Without its tasks a run does nothing. -/
theorem runInOrder_of_error {e : Error} (h : r.tasks = .error e) (order : List Nat) :
    r.runInOrder order = (.error (.error e), r) := by
  have none : r.providers = .error e := map_eq_error.mp h
  rw [runInOrder, none]

/-- A run of as many tasks as there are slots, or more. All that have a slot run; it is the others
that make it panic. -/
theorem runInOrder_eq (of : r.Of c) (h : r.tasks = .ok tasks) (order : List Nat) :
    r.runInOrder order =
      (if c.settings.StreamsFit then
          (Barrier.outcome (order.filterMap fun i =>
            (r.outcomes tasks)[i]?.map fun o => catchPanic o.1)).mapError .error
        else .error r.noSlot,
        { r with slots := (r.outcomes tasks).map (·.2) }) := by
  obtain ⟨ps, hps, _⟩ := map_eq_ok.mp h
  have words : r.slots.length < UInt64.size := of.slots ▸ c.settings.numStreams_lt
  have fit : tasks.length ≤ r.slots.length ↔ c.settings.StreamsFit := by
    rw [length_tasks of h, of.slots, Settings.streamsFit_iff]
  have count : 0 + (r.outcomes tasks).length = r.slots.length := by
    rw [Nat.zero_add, outcomes, List.length_map, List.length_zip,
      Nat.min_eq_right (length_slots_le of h)]
  have found (i : Nat) :
      (((r.outcomes tasks).zipIdx).map Prod.swap).lookup i = (r.outcomes tasks)[i]? := by
    rw [← lookup_zipIdx _ 0 i, Nat.zero_add]
  simp only [runInOrder, hps, enqueueAll_eq words hps h, map_jobsFrom, found, fit,
    putBack_zipIdx count, List.take_zero, List.nil_append]
  by_cases fits : c.settings.StreamsFit
  · rw [if_pos fits, if_pos fits]
    rfl
  · rw [if_neg fits, if_neg fits]
    rfl

end Runner
end TermStats
