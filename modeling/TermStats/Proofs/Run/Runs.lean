import TermStats.Proofs.Run.Enqueued

/-!
Runs, and what earlier runs leave behind. A run succeeds when every task does, in whatever order
they finish; each task works on the slot of its stream and on no other.
-/

namespace TermStats

open Result

namespace Barrier

theorem foldl_enqueue (results : List (Except Error Unit)) (b : Barrier) :
    results.foldl (fun b _ => b.enqueue) b = ⟨b.pending + results.length, b.firstError⟩ := by
  induction results generalizing b with
  | nil => rfl
  | cons x rest ih =>
      rw [List.foldl_cons, ih, enqueue, List.length_cons]
      simp only [Nat.add_assoc, Nat.add_comm 1]

theorem foldl_finish {results : List (Except Error Unit)} {b : Barrier}
    (h : results.length ≤ b.pending) : results.foldl finish b =
      ⟨b.pending - results.length, b.firstError.or (firstFault? results)⟩ := by
  induction results generalizing b with
  | nil => simp [firstFault?]
  | cons x rest ih =>
      rw [List.length_cons] at h
      have enough : rest.length ≤ (finish b x).pending := by
        cases x <;> simp only [finish] <;> omega
      have pending : (finish b x).pending - rest.length = b.pending - (rest.length + 1) := by
        cases x <;> simp only [finish] <;> omega
      rw [List.foldl_cons, ih enough, List.length_cons, pending]
      cases x with
      | ok _ => rfl
      | error e =>
          simp only [finish, firstFault?]
          cases b.firstError <;> rfl

/-- A wait reports the failure of the first task that failed. -/
theorem outcome_eq (results : List (Except Error Unit)) : outcome results =
    match firstFault? results with
    | none => .ok ()
    | some e => .error e := by
  have started := foldl_enqueue results idle
  have enough : results.length ≤ (results.foldl (fun b _ => b.enqueue) idle).pending := by
    rw [started]
    exact Nat.le_add_left _ _
  have done : (results.foldl (fun b _ => b.enqueue) idle).pending - results.length = 0 := by
    rw [started]
    simp [idle]
  have clean : (results.foldl (fun b _ => b.enqueue) idle).firstError = none := by
    rw [started]
    rfl
  rw [outcome, complete, foldl_finish enough, done, clean, Option.none_or, await?]
  cases firstFault? results <;> rfl

theorem outcome_eq_ok {results : List (Except Error Unit)} :
    outcome results = .ok () ↔ ∀ x ∈ results, x = .ok () := by
  have sound (x : Except Error Unit) : x.isOk = true ↔ x = .ok () :=
    ⟨Result.ok_of_isOk, fun h => h ▸ rfl⟩
  rw [outcome_eq]
  simp only [← sound, ← firstFault?_eq_none]
  cases firstFault? results with
  | none => exact ⟨fun _ => rfl, fun _ => rfl⟩
  | some e => exact ⟨nofun, nofun⟩

theorem outcome_eq_error {results : List (Except Error Unit)} {e : Error}
    (h : outcome results = .error e) : .error e ∈ results := by
  rw [outcome_eq] at h
  cases hf : firstFault? results with
  | none =>
      rw [hf] at h
      cases h
  | some e' =>
      rw [hf] at h
      cases h
      exact mem_of_firstFault? hf

end Barrier

namespace Runner

/-- The runners that a context comes to, run after run. -/
inductive Reached (c : RunContext) : Runner → Prop where
  | start : Reached c (ofContext c)
  | run {r : Runner} {order : List Nat} : Reached c r → order.Perm (List.range r.slots.length) →
      Reached c (r.runInOrder order).2

variable {c : RunContext} {r : Runner} {tasks : List SplitTask}

theorem outcome_of_slot {i : Nat} {t : SplitTask} {slot : SocketSlot} (ht : tasks[i]? = some t)
    (hslot : r.slots[i]? = some slot) : (r.outcomes tasks)[i]? = some (t.run slot) := by
  rw [getElem?_outcomes, ht, hslot]
  rfl

theorem slot_of_outcome {i : Nat} {o : Attempt SocketSlot} (h : (r.outcomes tasks)[i]? = some o) :
    ∃ t slot, tasks[i]? = some t ∧ r.slots[i]? = some slot ∧ o = t.run slot := by
  rw [getElem?_outcomes] at h
  obtain ⟨t, ht, h⟩ := Option.bind_eq_some_iff.mp h
  obtain ⟨slot, hslot, rfl⟩ := Option.map_eq_some_iff.mp h
  exact ⟨t, slot, ht, hslot, rfl⟩

theorem slot_of_run (of : r.Of c) (order : List Nat) (h : r.tasks = .ok tasks) {i : Nat}
    {t : SplitTask} {slot : SocketSlot} (ht : tasks[i]? = some t)
    (hslot : r.slots[i]? = some slot) :
    (r.runInOrder order).2.slots[i]? = some (t.run slot).2 := by
  rw [runInOrder_eq of h, List.getElem?_map, outcome_of_slot ht hslot]
  rfl

/-- A run whose streams do not fit panics, whatever its tasks do. -/
theorem runInOrder_unfit (of : r.Of c) (order : List Nat) (h : r.tasks = .ok tasks)
    (unfit : ¬ c.settings.StreamsFit) : (r.runInOrder order).1 = .error r.noSlot := by
  rw [runInOrder_eq of h, if_neg unfit]

/-- A run succeeds when its streams fit and all its tasks succeed. -/
theorem runInOrder_eq_ok (of : r.Of c) {order : List Nat} (h : r.tasks = .ok tasks)
    (perm : order.Perm (List.range r.slots.length)) :
    (r.runInOrder order).1 = .ok () ↔ c.settings.StreamsFit ∧
      ∀ (i : Nat) (t : SplitTask) (slot : SocketSlot),
        tasks[i]? = some t → r.slots[i]? = some slot → (t.run slot).1 = .ok () := by
  by_cases fit : c.settings.StreamsFit
  · rw [runInOrder_eq of h, if_pos fit, mapError_eq_ok, Barrier.outcome_eq_ok,
      and_iff_right fit]
    refine ⟨?_, ?_⟩
    · intro hall i t slot ht hslot
      have hi : i ∈ order :=
        perm.mem_iff.mpr (List.mem_range.mpr (List.getElem?_eq_some_iff.mp hslot).1)
      refine catchPanic_ok.mp (hall (catchPanic (t.run slot).1) ?_)
      refine List.mem_filterMap.mpr ⟨i, hi, ?_⟩
      rw [outcome_of_slot ht hslot]
      rfl
    · intro hall x hx
      obtain ⟨i, _, hi⟩ := List.mem_filterMap.mp hx
      obtain ⟨o, ho, rfl⟩ := Option.map_eq_some_iff.mp hi
      obtain ⟨t, slot, ht, hslot, rfl⟩ := slot_of_outcome ho
      exact catchPanic_ok.mpr (hall i t slot ht hslot)
  · rw [runInOrder_unfit of order h fit]
    exact ⟨nofun, fun h => absurd h.1 fit⟩

/-- What a run reports, but for a panic of its own, is the failure of a task. -/
theorem task_of_runInOrder (of : r.Of c) {order : List Nat} (h : r.tasks = .ok tasks) {e : Error}
    (failed : (r.runInOrder order).1 = .error (.error e)) :
    ∃ (i : Nat) (t : SplitTask) (slot : SocketSlot), tasks[i]? = some t ∧
      r.slots[i]? = some slot ∧ catchPanic (t.run slot).1 = .error e := by
  rw [runInOrder_eq of h] at failed
  split at failed
  · obtain ⟨_, reported, same⟩ := mapError_eq_error.mp failed
    cases same
    obtain ⟨i, _, hi⟩ := List.mem_filterMap.mp (Barrier.outcome_eq_error reported)
    obtain ⟨o, ho, outcome⟩ := Option.map_eq_some_iff.mp hi
    obtain ⟨t, slot, ht, hslot, rfl⟩ := slot_of_outcome ho
    exact ⟨i, t, slot, ht, hslot, outcome⟩
  · cases failed

theorem of_ofContext (checked : c.Checked) : (ofContext c).Of c :=
  ⟨rfl, rfl, by rw [ofContext, List.length_map, checked.sockets]⟩

theorem Of.run (of : r.Of c) (order : List Nat) : (r.runInOrder order).2.Of c := by
  cases ht : r.tasks with
  | error e =>
      rw [runInOrder_of_error ht]
      exact of
  | ok tasks =>
      rw [runInOrder_eq of ht]
      refine ⟨of.settings, of.shards, ?_⟩
      rw [List.length_map, outcomes, List.length_map, List.length_zip,
        Nat.min_eq_right (length_slots_le of ht)]
      exact of.slots

theorem Reached.of (checked : c.Checked) (reached : Reached c r) : r.Of c := by
  induction reached with
  | start => exact of_ofContext checked
  | run _ _ ih => exact ih.run _

end Runner
end TermStats
