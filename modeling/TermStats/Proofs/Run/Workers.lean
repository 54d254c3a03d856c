import Mathlib.Data.List.DropRight
import Mathlib.Data.List.Nodup
import Mathlib.Data.List.Range
import TermStats.Run.Workers

/-!
Workers behind a barrier, whatever the order of events. Tasks are enqueued, finish and are waited
for in between; a state goes with the history of events that led to it, from which all it holds can
be told. A wait reports of the tasks since the last one only, so no failure is reported twice.
-/

namespace TermStats

/-- Tasks are numbered in the order in which they are enqueued. -/
structure Workers where
  barrier : Barrier
  enqueued : Nat
  /-- The tasks that have not finished. -/
  outstanding : List Nat
  deriving Repr, DecidableEq

namespace Workers

def idle : Workers := ⟨.idle, 0, []⟩

inductive Event where
  | enqueue
  /-- A task has come to its end, or panicked. -/
  | finish (task : Nat) (outcome : Except Fault Unit)
  | wait (report : Except Error Unit)

namespace Event

@[simp]
def isEnqueue : Event → Bool
  | enqueue => true
  | _ => false

@[simp]
def isWait : Event → Bool
  | wait _ => true
  | _ => false

@[simp]
def finished? : Event → Option Nat
  | finish task _ => some task
  | _ => none

/-- The task that failed, and its error. -/
@[simp]
def failure? : Event → Option (Nat × Error)
  | finish task (.error f) => some (task, f.caught)
  | _ => none

end Event

/-- Any outstanding task may be the next to finish. -/
inductive Step : Workers → Event → Workers → Prop where
  | enqueue {w : Workers} :
      Step w .enqueue ⟨w.barrier.enqueue, w.enqueued + 1, w.outstanding ++ [w.enqueued]⟩
  | finish {w : Workers} {task : Nat} {outcome : Except Fault Unit} (out : task ∈ w.outstanding) :
      Step w (.finish task outcome)
        ⟨w.barrier.finish (catchPanic outcome), w.enqueued, w.outstanding.erase task⟩
  | wait {w : Workers} {report : Except Error Unit} {barrier : Barrier}
      (h : w.barrier.await? = some (report, barrier)) :
      Step w (.wait report) { w with barrier := barrier }

/-- The states that idle workers can come to, with the events on the way. -/
inductive Reached : List Event → Workers → Prop where
  | start : Reached [] idle
  | step {events : List Event} {e : Event} {w w' : Workers} (before : Reached events w)
      (step : Step w e w') : Reached (events ++ [e]) w'

def numEnqueued (events : List Event) : Nat :=
  events.countP Event.isEnqueue

def finished (events : List Event) : List Nat :=
  events.filterMap Event.finished?

def unfinished (events : List Event) : List Nat :=
  (List.range (numEnqueued events)).filter (· ∉ finished events)

/-- The events since the last wait. -/
def sinceWait (events : List Event) : List Event :=
  events.rtakeWhile (!·.isWait)

/-- The first task that failed since the last wait, and its error. -/
def firstFailure? (events : List Event) : Option (Nat × Error) :=
  (sinceWait events).findSome? Event.failure?

section History

variable {events : List Event} {e : Event}

theorem sinceWait_concat (h : e.isWait = false) :
    sinceWait (events ++ [e]) = sinceWait events ++ [e] :=
  List.rtakeWhile_concat_pos _ _ _ (by rw [h]; rfl)

theorem sinceWait_wait (events : List Event) (report : Except Error Unit) :
    sinceWait (events ++ [.wait report]) = [] :=
  List.rtakeWhile_concat_neg _ _ _ (by simp [Event.isWait])

/-- What came since the last wait came after any wait. -/
theorem mem_of_mem_sinceWait {later : List Event} {report : Except Error Unit}
    (h : e ∈ sinceWait (events ++ .wait report :: later)) : e ∈ later := by
  induction later using List.reverseRecOn with
  | nil =>
      rw [sinceWait_wait] at h
      cases h
  | append_singleton later last ih =>
      rw [← List.cons_append, ← List.append_assoc] at h
      cases hw : last.isWait with
      | false =>
          rw [sinceWait_concat hw, List.mem_append] at h
          exact List.mem_append.mpr (h.imp_left ih)
      | true =>
          cases last with
          | wait report' =>
              rw [sinceWait_wait] at h
              cases h
          | enqueue | finish _ _ => cases hw

theorem firstFailure?_concat (h : e.isWait = false) :
    firstFailure? (events ++ [e]) = (firstFailure? events).or e.failure? := by
  rw [firstFailure?, sinceWait_concat h, List.findSome?_append, List.findSome?_singleton,
    ← firstFailure?]

theorem firstFailure?_eq_none : firstFailure? events = none ↔
    ∀ task outcome, .finish task outcome ∈ sinceWait events → outcome = .ok () := by
  rw [firstFailure?, List.findSome?_eq_none_iff]
  refine ⟨fun h task outcome mem => ?_, fun h e mem => ?_⟩
  · cases outcome with
    | ok _ => rfl
    | error f => cases h _ mem
  · cases e with
    | finish task outcome => rw [h task outcome mem, Event.failure?]; nofun
    | enqueue | wait _ => rfl

theorem finished_of_firstFailure? {task : Nat} {error : Error}
    (h : firstFailure? events = some (task, error)) :
    ∃ f : Fault, f.caught = error ∧ .finish task (.error f) ∈ sinceWait events := by
  obtain ⟨e, mem, he⟩ := List.exists_of_findSome?_eq_some h
  cases e with
  | finish task' outcome =>
      cases outcome with
      | ok _ => cases he
      | error f =>
          cases he
          exact ⟨f, rfl, mem⟩
  | enqueue | wait _ => cases he

theorem mem_finished_of_mem {task : Nat} {outcome : Except Fault Unit}
    (h : .finish task outcome ∈ events) : task ∈ finished events :=
  List.mem_filterMap.mpr ⟨_, h, rfl⟩

@[simp]
theorem finished_concat (events : List Event) (e : Event) :
    finished (events ++ [e]) = finished events ++ e.finished?.toList := by
  rw [finished, List.filterMap_append, ← finished]
  cases e <;> rfl

@[simp]
theorem numEnqueued_concat (events : List Event) (e : Event) :
    numEnqueued (events ++ [e]) = numEnqueued events + if e.isEnqueue then 1 else 0 := by
  rw [numEnqueued, List.countP_append, List.countP_singleton, ← numEnqueued]

theorem mem_unfinished {task : Nat} :
    task ∈ unfinished events ↔ task < numEnqueued events ∧ task ∉ finished events := by
  simp [unfinished]

theorem nodup_unfinished (events : List Event) : (unfinished events).Nodup :=
  List.nodup_range.filter _

theorem unfinished_enqueue (new : numEnqueued events ∉ finished events) :
    unfinished (events ++ [.enqueue]) = unfinished events ++ [numEnqueued events] := by
  simp [unfinished, List.range_succ, List.filter_append, new]

theorem unfinished_finish (events : List Event) (task : Nat) (outcome : Except Fault Unit) :
    unfinished (events ++ [.finish task outcome]) = (unfinished events).erase task := by
  have same : numEnqueued (events ++ [.finish task outcome]) = numEnqueued events :=
    numEnqueued_concat events _
  rw [(nodup_unfinished events).erase_eq_filter, unfinished, unfinished, same, List.filter_filter]
  refine List.filter_congr fun other _ => Bool.eq_iff_iff.mpr ?_
  simp [not_or, and_comm]

theorem unfinished_wait (events : List Event) (report : Except Error Unit) :
    unfinished (events ++ [.wait report]) = unfinished events := by
  simp [unfinished]

end History

/-- All that a state holds can be told from the events before it. -/
structure Consistent (events : List Event) (w : Workers) : Prop where
  enqueued : w.enqueued = numEnqueued events
  outstanding : w.outstanding = unfinished events
  pending : w.barrier.pending = w.outstanding.length
  firstError : w.barrier.firstError = (firstFailure? events).map (·.2)
  known : ∀ task ∈ finished events, task < numEnqueued events
  once : (finished events).Nodup

variable {events : List Event} {e : Event} {w w' : Workers}

theorem consistent_idle : Consistent [] idle where
  enqueued := rfl
  outstanding := rfl
  pending := rfl
  firstError := rfl
  known := nofun
  once := List.nodup_nil

theorem await?_eq_some {b b' : Barrier} {report : Except Error Unit} :
    b.await? = some (report, b') ↔
      b.pending = 0 ∧ b' = ⟨0, none⟩ ∧ report = b.firstError.elim (.ok ()) .error := by
  obtain ⟨pending, firstError⟩ := b
  simp only [Barrier.await?]
  split
  · rename_i idle
    subst idle
    cases firstError <;> simp [eq_comm, and_comm]
  · rename_i busy
    simp [busy]

theorem Consistent.enqueue (c : Consistent events w) : Consistent (events ++ [.enqueue])
    ⟨w.barrier.enqueue, w.enqueued + 1, w.outstanding ++ [w.enqueued]⟩ where
  enqueued := by simp [c.enqueued]
  outstanding := by
    have new : numEnqueued events ∉ finished events := fun mem => Nat.lt_irrefl _ (c.known _ mem)
    rw [unfinished_enqueue new, c.outstanding, c.enqueued]
  pending := by
    rw [List.length_append, Barrier.enqueue, c.pending, List.length_singleton]
  firstError := by
    rw [firstFailure?_concat rfl]
    simpa [Barrier.enqueue] using c.firstError
  known := by simpa using fun task mem => Nat.lt_succ_of_lt (c.known task mem)
  once := by simpa using c.once

theorem Consistent.finish {task : Nat} (c : Consistent events w) (out : task ∈ w.outstanding)
    (outcome : Except Fault Unit) : Consistent (events ++ [.finish task outcome])
      ⟨w.barrier.finish (catchPanic outcome), w.enqueued, w.outstanding.erase task⟩ where
  enqueued := by simpa using c.enqueued
  outstanding := by rw [unfinished_finish, c.outstanding]
  pending := by
    rw [List.length_erase_of_mem out, ← c.pending]
    cases outcome <;> rfl
  firstError := by
    rw [firstFailure?_concat rfl, Option.map_or, ← c.firstError]
    cases outcome with
    | ok _ => exact Option.or_none.symm
    | error f => rfl
  known := by
    have asked := (mem_unfinished.mp (c.outstanding ▸ out)).1
    intro other mem
    rcases List.mem_append.mp (finished_concat _ _ ▸ mem) with mem | mem
    · simpa using c.known other mem
    · obtain rfl := List.mem_singleton.mp mem
      simpa using asked
  once := by
    have running := (mem_unfinished.mp (c.outstanding ▸ out)).2
    rw [finished_concat]
    exact c.once.append (List.nodup_singleton _) (by simpa using running)

theorem Consistent.wait (c : Consistent events w) (idle : w.barrier.pending = 0)
    (report : Except Error Unit) :
    Consistent (events ++ [.wait report]) { w with barrier := ⟨0, none⟩ } where
  enqueued := by simpa using c.enqueued
  outstanding := by
    rw [unfinished_wait]
    exact c.outstanding
  pending := idle.symm.trans c.pending
  firstError := by
    rw [firstFailure?, sinceWait_wait]
    rfl
  known := by simpa using c.known
  once := by simpa using c.once

theorem Consistent.step (c : Consistent events w) (s : Step w e w') :
    Consistent (events ++ [e]) w' := by
  cases s with
  | enqueue => exact c.enqueue
  | finish out => exact c.finish out _
  | wait h =>
      obtain ⟨idle, rfl, -⟩ := await?_eq_some.mp h
      exact c.wait idle _

theorem Reached.consistent (h : Reached events w) : Consistent events w := by
  induction h with
  | start => exact consistent_idle
  | step _ s ih => exact ih.step s

/-- There is a task for every unit that the counter goes down by. -/
theorem Consistent.pending_of_finish {task : Nat} {outcome : Except Fault Unit}
    (c : Consistent events w) (s : Step w (.finish task outcome) w') :
    w'.barrier.pending + 1 = w.barrier.pending := by
  have c' := c.step s
  cases s with
  | finish out =>
      rw [c'.pending, c.pending]
      exact List.length_erase_add_one out

/-- No task is cancelled: those that are outstanding can finish in any order and in any way. -/
theorem Reached.finish_all {order : List (Nat × Except Fault Unit)} (h : Reached events w)
    (all : (order.map (·.1)).Perm (unfinished events)) :
    ∃ w', Reached (events ++ order.map fun x => .finish x.1 x.2) w' ∧ w'.barrier.pending = 0 := by
  -- What is left of the order is an order of what is still outstanding.
  induction order generalizing events w with
  | nil =>
      refine ⟨w, by simpa using h, ?_⟩
      rw [h.consistent.pending, h.consistent.outstanding, List.nil_perm.mp all, List.length_nil]
  | cons x rest ih =>
      obtain ⟨task, outcome⟩ := x
      obtain ⟨out, rest_all⟩ := List.cons_perm_iff_perm_erase.mp all
      have ends : Step w (.finish task outcome) _ := .finish (h.consistent.outstanding ▸ out)
      obtain ⟨w', done, none_pending⟩ := ih (h.step ends) (by rwa [unfinished_finish])
      exact ⟨w', by simpa using done, none_pending⟩

theorem Consistent.wait_iff {report : Except Error Unit} (c : Consistent events w) :
    (∃ w', Step w (.wait report) w') ↔
      unfinished events = [] ∧ report = (firstFailure? events).elim (.ok ()) (.error ·.2) := by
  have pending : w.barrier.pending = 0 ↔ unfinished events = [] := by
    rw [c.pending, c.outstanding, List.length_eq_zero_iff]
  have reports : w.barrier.firstError.elim (.ok ()) .error =
      (firstFailure? events).elim (.ok () : Except Error Unit) (.error ·.2) := by
    rw [c.firstError]
    cases firstFailure? events <;> rfl
  rw [← pending, ← reports]
  constructor
  · rintro ⟨w', _ | _ | h⟩
    obtain ⟨idle, -, report_eq⟩ := await?_eq_some.mp h
    exact ⟨idle, report_eq⟩
  · rintro ⟨idle, report_eq⟩
    exact ⟨_, .wait (await?_eq_some.mpr ⟨idle, rfl, report_eq⟩)⟩

/-- The first failure since a wait is of another task than that of an earlier one. -/
theorem firstFailure?_ne {first later : List Event} {report : Except Error Unit}
    {task task' : Nat} {error error' : Error}
    (once : (finished (first ++ .wait report :: later)).Nodup)
    (h : firstFailure? first = some (task, error))
    (h' : firstFailure? (first ++ .wait report :: later) = some (task', error')) :
    task ≠ task' := by
  obtain ⟨f, -, mem⟩ := finished_of_firstFailure? h
  obtain ⟨f', -, mem'⟩ := finished_of_firstFailure? h'
  have early := mem_finished_of_mem (List.rtakeWhile_suffix _ _ |>.subset mem)
  have late := mem_finished_of_mem (mem_of_mem_sinceWait mem')
  rw [finished, List.filterMap_append] at once
  -- One finished before the wait and one after it, and no task does both.
  exact fun same => (List.disjoint_of_nodup_append once) early (same ▸ late)

/-- However tasks are enqueued, finish and are waited for: the counter is the number of tasks that
have not finished, and goes down by one for each that does; no task finishes twice, and all that are
outstanding can finish, whatever became of others. A wait is over when there are none; it reports
success when every task since the last wait succeeded, and else the error of the one that failed
first, which is not the task of any earlier report. -/
theorem reports_each_failure_once (reached : Reached events w) :
    w.outstanding = unfinished events ∧ w.barrier.pending = (unfinished events).length ∧
    (finished events).Nodup ∧ (∀ task ∈ finished events, task < numEnqueued events) ∧
    (∀ task outcome w', Step w (.finish task outcome) w' →
      w'.barrier.pending + 1 = w.barrier.pending) ∧
    (∀ order : List (Nat × Except Fault Unit), (order.map (·.1)).Perm (unfinished events) →
      ∃ w', Reached (events ++ order.map fun x => .finish x.1 x.2) w' ∧
        w'.barrier.pending = 0) ∧
    ((∃ report w', Step w (.wait report) w') ↔ unfinished events = []) ∧
    ∀ report w', Step w (.wait report) w' →
      (report = .ok () ↔
        ∀ task outcome, .finish task outcome ∈ sinceWait events → outcome = .ok ()) ∧
      ∀ e, (report = .error e ↔ ∃ task, firstFailure? events = some (task, e)) ∧
        ∀ task first earlier later e', events = first ++ .wait earlier :: later →
          firstFailure? events = some (task, e) → firstFailure? first ≠ some (task, e') := by
  have c := reached.consistent
  refine ⟨c.outstanding, c.outstanding ▸ c.pending, c.once, c.known,
    fun _ _ _ => c.pending_of_finish, fun _ => reached.finish_all, ?_, fun report w' s => ?_⟩
  · exact ⟨fun ⟨report, s⟩ => (c.wait_iff.mp s).1, fun done => ⟨_, c.wait_iff.mpr ⟨done, rfl⟩⟩⟩
  · have report_eq := (c.wait_iff.mp ⟨w', s⟩).2
    refine ⟨?_, fun e => ⟨?_, ?_⟩⟩
    · rw [← firstFailure?_eq_none, report_eq]
      cases firstFailure? events <;> simp
    · rw [report_eq]
      cases firstFailure? events <;> simp [Prod.ext_iff]
    · rintro task first earlier later e' rfl h h'
      exact firstFailure?_ne c.once h' h rfl

/-- A panic is reported by the wait after it, and the next wait reports success. -/
theorem reports_each_failure_once_panicked : ∃ before after w w₁ w₂ w₃,
    before = [.enqueue, .enqueue, .finish 1 (.error (.panic (.ofText "boom"))),
      .finish 0 (.ok ())] ∧
    after = before ++ [.wait (.error (.panicked "boom")), .enqueue, .finish 2 (.ok ())] ∧
    Reached before w ∧ Step w (.wait (.error (.panicked "boom"))) w₁ ∧
    (∃ task, firstFailure? before = some (task, .panicked "boom")) ∧
    Reached after w₂ ∧ Step w₂ (.wait (.ok ())) w₃ ∧
    ∀ task outcome, .finish task outcome ∈ sinceWait after → outcome = .ok () := by
  have panics : Step ⟨⟨2, none⟩, 2, [0, 1]⟩ (.finish 1 (.error (.panic (.ofText "boom"))))
      ⟨⟨1, some (.panicked "boom")⟩, 2, [0]⟩ := .finish (by decide)
  have ends : Step ⟨⟨1, some (.panicked "boom")⟩, 2, [0]⟩ (.finish 0 (.ok ()))
      ⟨⟨0, some (.panicked "boom")⟩, 2, []⟩ := .finish (by decide)
  have failed := ((Reached.start.step .enqueue).step .enqueue |>.step panics).step ends
  have reports : Step ⟨⟨0, some (.panicked "boom")⟩, 2, []⟩ (.wait (.error (.panicked "boom")))
      ⟨⟨0, none⟩, 2, []⟩ := .wait rfl
  have ends' : Step ⟨⟨1, none⟩, 3, [2]⟩ (.finish 2 (.ok ())) ⟨⟨0, none⟩, 3, []⟩ :=
    .finish (by decide)
  have well := ((failed.step reports).step .enqueue).step ends'
  have reports' : Step ⟨⟨0, none⟩, 3, []⟩ (.wait (.ok ())) ⟨⟨0, none⟩, 3, []⟩ := .wait rfl
  have of_failed := (reports_each_failure_once failed).2.2.2.2.2.2.2 _ _ reports
  have of_well := (reports_each_failure_once well).2.2.2.2.2.2.2 _ _ reports'
  exact ⟨_, _, _, _, _, _, rfl, rfl, failed, reports, (of_failed.2 _).1.mp rfl, well, reports',
    of_well.1.mp rfl⟩

end Workers
end TermStats
