import Mathlib.Data.List.SplitBy
import TermStats.Proofs.Term.Runs

/-!
What a grouping yields from first to last: one descriptor for each maximal run of terms of one id,
whatever the order of the ids. A fault comes in the place of the run that it interrupts; no term
before that run is lost or repeated, and no item behind the fault is taken from the source.
-/

namespace TermStats

section Runs

variable {ε α : Type}

/-- The items behind the first fault. -/
def afterFault : List (Except ε α) → List (Except ε α)
  | .ok _ :: rest => afterFault rest
  | .error _ :: rest => rest
  | [] => []

theorem afterFault_append (l : List α) (xs : List (Except ε α)) :
    afterFault (l.map .ok ++ xs) = afterFault xs := by
  induction l with
  | nil => rfl
  | cons a rest ih => exact ih

/-- Terms cut where the id changes. -/
def idRuns (terms : List Term) : List (List Term) :=
  terms.splitBy fun t u => t.id = u.id

/-- The runs of the terms before the first fault, if there is one, which interrupts the last. -/
def closedRuns (items : List (Except ε Term)) : List (List Term) :=
  match firstFault? items with
  | none => idRuns (beforeFault items)
  | some _ => (idRuns (beforeFault items)).dropLast

variable {run terms : List Term} {items : List (Except ε Term)} {id : TermId}

theorem idRuns_of_same (nonempty : run ≠ []) (same : ∀ t ∈ run, t.id = id) :
    idRuns run = [run] := by
  apply List.splitBy_of_isChain nonempty
  apply List.Pairwise.isChain
  rw [List.pairwise_iff_forall_sublist]
  intro t u sub
  have mem := sub.subset
  simp [same t (mem (by simp)), same u (mem (by simp))]

theorem same_of_mem_idRuns (h : run ∈ idRuns terms) {t u : Term} (ht : t ∈ run) (hu : u ∈ run) :
    t.id = u.id := by
  have chain : (run.map (·.id)).IsChain (· = ·) :=
    (List.isChain_map _).mpr ((List.isChain_of_mem_splitBy h).imp fun _ _ => of_decide_eq_true)
  exact (List.isChain_iff_pairwise.mp chain).forall_of_forall (fun _ _ => rfl)
    (List.mem_map_of_mem ht) (List.mem_map_of_mem hu)

/-- A run that the next term is not part of comes first. -/
theorem idRuns_append (nonempty : run ≠ []) (same : ∀ t ∈ run, t.id = id)
    (follows : ∀ t ∈ terms.head?, t.id ≠ id) : idRuns (run ++ terms) = run :: idRuns terms := by
  have apart : ∀ t ∈ run.getLast?, ∀ u ∈ terms.head?, decide (t.id = u.id) = false := by
    intro t ht u hu
    rw [same t (List.mem_of_getLast? ht), decide_eq_false_iff_not]
    exact Ne.symm (follows u hu)
  rw [idRuns, List.splitBy_append apart]
  exact congrArg (· ++ idRuns terms) (idRuns_of_same nonempty same)

theorem closedRuns_append (nonempty : run ≠ []) (same : ∀ t ∈ run, t.id = id)
    (follows : ∀ x ∈ items.head?, ∃ t, x = .ok t ∧ t.id ≠ id) :
    closedRuns (run.map .ok ++ items) = run :: closedRuns items := by
  have next : ∀ t ∈ (beforeFault items).head?, t.id ≠ id := by
    intro t ht
    cases items with
    | nil => cases ht
    | cons x rest =>
        obtain ⟨u, rfl, other⟩ := follows x rfl
        cases ht
        exact other
  rw [closedRuns, closedRuns, firstFault?_append, beforeFault_append,
    idRuns_append nonempty same next]
  cases hf : firstFault? items with
  | none => rfl
  | some e =>
      -- The fault is not the first item, so it interrupts a run of its own.
      apply List.dropLast_cons_of_ne_nil
      cases items with
      | nil => cases hf
      | cons x rest =>
          obtain ⟨u, rfl, _⟩ := follows x rfl
          exact List.splitBy_ne_nil.mpr (List.cons_ne_nil _ _)

theorem closedRuns_interrupted {e : ε} {rest : List (Except ε Term)}
    (same : ∀ t ∈ run, ∀ u ∈ run, t.id = u.id) :
    closedRuns (run.map .ok ++ .error e :: rest) = [] := by
  rw [closedRuns, firstFault?_append, beforeFault_append]
  cases run with
  | nil => rfl
  | cons t ts =>
      have one : idRuns (t :: ts) = [t :: ts] :=
        idRuns_of_same (List.cons_ne_nil _ _) fun u hu => same u hu t List.mem_cons_self
      simp only [firstFault?, beforeFault, List.append_nil, one, List.dropLast_singleton]

end Runs

namespace Descriptor

/-- The descriptor of a run of terms of one id. -/
def ofRun (source : UInt32) (run : List Term) : Descriptor :=
  .ofPostings (run.head?.getD .empty).id (run.map (Posting.ofTerm · source))

/-- The terms whose postings a descriptor holds. -/
def terms (d : Descriptor) : List Term :=
  d.postings.map fun p => ⟨d.id, p.address, p.freq⟩

theorem ofRun_eq {source : UInt32} {run : List Term} {id : TermId} (nonempty : run ≠ [])
    (same : ∀ t ∈ run, t.id = id) :
    ofRun source run = .ofPostings id (run.map (Posting.ofTerm · source)) := by
  cases run with
  | nil => contradiction
  | cons t ts => rw [ofRun, List.head?_cons, Option.getD_some, same t List.mem_cons_self]

theorem terms_ofRun {source : UInt32} {run : List Term}
    (same : ∀ t ∈ run, ∀ u ∈ run, t.id = u.id) : (ofRun source run).terms = run := by
  cases run with
  | nil => rfl
  | cons t ts =>
      simp only [terms, ofRun, postings_ofPostings, id_ofPostings, List.map_map, List.head?_cons,
        Option.getD_some]
      refine (List.map_congr_left fun u hu => ?_).trans (List.map_id' _)
      simp only [Function.comp, Posting.ofTerm, same t List.mem_cons_self u hu]

end Descriptor

namespace Grouping

variable {σ : Type} [TermSource σ]

/-- The grouping after a number of steps. -/
def after (g : Grouping σ) : (steps : Nat) → Grouping σ
  | 0 => g
  | steps + 1 => g.next.2.after steps

theorem next_of_done {g : Grouping σ} (h : g.done = true) : g.next = (none, g) := by
  rw [next, if_pos h]

theorem after_of_done {g : Grouping σ} (h : g.done = true) (steps : Nat) : g.after steps = g := by
  induction steps with
  | zero => rfl
  | succ steps ih => rw [after, next_of_done h, ih]

/-- The runs that are still to be grouped, and the fault behind them, if there is one. -/
def items (g : Grouping σ) : List (Except Error Descriptor) :=
  (closedRuns g.pending).map (fun run => .ok (.ofRun g.source run)) ++
    (firstFault? g.pending).toList.map .error

/-- What one step does to what is still to come, and where it leaves the source. -/
theorem next_cases [FusedSource σ] {g : Grouping σ} (going : g.done = false) :
    (∃ d g', g.next = (some (.ok d), g') ∧ g'.done = false ∧ g.items = .ok d :: g'.items ∧
      (closedRuns g.pending).length = (closedRuns g'.pending).length + 1 ∧
      afterFault g.pending = afterFault g'.pending) ∨
    ∃ x g', g.next = (x, g') ∧ g'.done = true ∧ g.items = x.toList ∧
      closedRuns g.pending = [] ∧ afterFault g.pending = TermSource.toList g'.inner := by
  rcases hn : g.next with ⟨_ | (e | d), g'⟩
  · obtain ⟨nothing, done, ended⟩ := next_none hn
    refine .inr ⟨none, g', rfl, done, ?_, ?_, ?_⟩
    · rw [items, nothing]
      rfl
    · rw [nothing]
      rfl
    · rw [nothing, ended going]
      rfl
  · obtain ⟨run, pending, same, done⟩ := next_error hn
    have interrupted : closedRuns g.pending = [] := by
      rw [pending]
      exact closedRuns_interrupted same
    refine .inr ⟨_, g', rfl, done, ?_, interrupted, ?_⟩
    · rw [items, interrupted, pending, firstFault?_append]
      rfl
    · rw [pending, afterFault_append]
      rfl
  · obtain ⟨run, nonempty, pending, postings, same, source, follows, done⟩ := next_ok hn
    have first : closedRuns g.pending = run :: closedRuns g'.pending := by
      rw [pending]
      exact closedRuns_append nonempty same follows
    have group : Descriptor.ofRun g.source run = d := by
      rw [Descriptor.ofRun_eq nonempty same, ← postings, Descriptor.ofPostings_postings]
    refine .inl ⟨d, g', rfl, done, ?_, ?_, ?_⟩
    · rw [items, items, first, source, pending, firstFault?_append, List.map_cons, group]
      rfl
    · rw [first, List.length_cons]
    · rw [pending, afterFault_append]

/-- All steps of a grouping, and what is left of its source behind them. -/
theorem after_from [FusedSource σ] {g : Grouping σ} (going : g.done = false) (steps : Nat) :
    (g.after steps).next.1 = g.items[steps]? ∧
      ((closedRuns g.pending).length < steps →
        TermSource.toList (g.after steps).inner = afterFault g.pending) := by
  induction steps generalizing g with
  | zero =>
      refine ⟨?_, fun h => absurd h (Nat.not_lt_zero _)⟩
      obtain ⟨d, g', hn, _, items, _⟩ | ⟨x, g', hn, _, items, _⟩ := next_cases going
      · rw [after, hn, items]
        rfl
      · rw [after, hn, items]
        cases x <;> rfl
  | succ steps ih =>
      obtain ⟨d, g', hn, going', items, length, behind⟩ | ⟨x, g', hn, done, items, none, behind⟩ :=
        next_cases going
      · obtain ⟨step, unread⟩ := ih going'
        rw [after, hn, items, length, behind]
        exact ⟨step, fun h => unread (Nat.lt_of_succ_lt_succ h)⟩
      · rw [after, hn, after_of_done done, next_of_done done, items, behind]
        refine ⟨?_, fun _ => rfl⟩
        cases x <;> rfl

/-- For any source that stays at its end: each call yields the descriptor of the next maximal run
of one id, tagged with the source's index, then the fault that interrupts a run, if there is one,
and from then on nothing. What stands behind the fault is never read. Without a fault, the terms of
all descriptors together are those of the source. -/
theorem yields_maximal_runs [FusedSource σ] (s : σ) (source : UInt32) :
    (∀ i, ((ofSource s source).after i).next.1 =
      ((closedRuns (TermSource.toList s)).map (fun run => .ok (.ofRun source run)) ++
        (firstFault? (TermSource.toList s)).toList.map .error)[i]?) ∧
    (∀ i, (closedRuns (TermSource.toList s)).length < i →
      TermSource.toList ((ofSource s source).after i).inner =
        afterFault (TermSource.toList s)) ∧
    (firstFault? (TermSource.toList s) = none →
      ((closedRuns (TermSource.toList s)).flatMap fun run =>
        (Descriptor.ofRun source run).terms).map .ok = TermSource.toList s) := by
  have pending : (ofSource s source).pending = TermSource.toList s := pending_of_not_done rfl
  have steps := after_from (g := ofSource s source) rfl
  rw [items, pending] at steps
  refine ⟨fun i => (steps i).1, fun i => (steps i).2, fun sound => ?_⟩
  have all : closedRuns (TermSource.toList s) = idRuns (beforeFault (TermSource.toList s)) := by
    rw [closedRuns, sound]
  rw [all, List.flatMap_congr fun run h => Descriptor.terms_ofRun fun t ht u hu =>
    same_of_mem_idRuns h ht hu, List.flatMap_id', idRuns, List.flatten_splitBy,
    map_beforeFault sound]

/-- Terms of two ids, and a fault between those of the second. -/
def interruptedTerms : List (Except Error Term) :=
  [.ok ⟨.int 2, 0, 1⟩, .ok ⟨.int 2, 4, 2⟩, .ok ⟨.int 1, 9, 1⟩, .error (.ofSystem "closed"),
    .ok ⟨.int 1, 10, 1⟩]

/-- The run of the first id is yielded, then the fault, and the term behind it is left. -/
theorem yields_maximal_runs_interrupted :
    (∀ i, ((ofSource interruptedTerms 3).after i).next.1 =
      [.ok (.ofPostings (.int 2) [⟨0, 1, 3⟩, ⟨4, 2, 3⟩]), .error (.ofSystem "closed")][i]?) ∧
    ∀ i, 1 < i → TermSource.toList ((ofSource interruptedTerms 3).after i).inner =
      [.ok ⟨.int 1, 10, 1⟩] := by
  obtain ⟨calls, unread, _⟩ := yields_maximal_runs interruptedTerms 3
  rw [TermSource.toList_list] at calls unread
  exact ⟨calls, unread⟩

end Grouping
end TermStats
