import TermStats.Proofs.Term.Items

/-!
What one step of a grouping takes from its source: a maximal run of terms of one id, or the fault
that stands before or inside such a run. Every pending item is accounted for, so nothing is lost or
repeated between two steps.
-/

namespace TermStats.Grouping

variable {σ : Type} [TermSource σ]

/-- The items that have not yet been given out as part of a descriptor. -/
def pending (g : Grouping σ) : List (Except Error Term) :=
  if g.done then [] else g.lookahead.toList.map .ok ++ TermSource.toList g.inner

theorem pending_of_done {g : Grouping σ} (h : g.done = true) : g.pending = [] :=
  if_pos h

theorem pending_of_not_done {g : Grouping σ} (h : g.done = false) :
    g.pending = g.lookahead.toList.map .ok ++ TermSource.toList g.inner :=
  if_neg (by simp [h])

/-- The term that ends a run is of another id; where nothing ends it, the source is at its end. -/
theorem takeGroup_ok [FusedSource σ] {source : UInt32} {d d' : Descriptor} {s s' : σ}
    {after : Option Term} (h : takeGroup source d s = (.ok (d', after), s')) :
    ∃ run : List Term,
      TermSource.toList s = run.map .ok ++ (after.toList.map .ok ++ TermSource.toList s') ∧
      d' = .ofPostings d.id (d.postings ++ run.map (Posting.ofTerm · source)) ∧
      (∀ t ∈ run, t.id = d.id) ∧ (∀ t ∈ after, t.id ≠ d.id) ∧
      (after = none → TermSource.toList s' = []) := by
  induction s using TermSource.induction generalizing d with
  | finished s rest hn =>
      rw [takeGroup_of_none source d hn] at h
      cases h
      exact ⟨[], by simp [TermSource.toList_of_none hn, TermSource.toList_of_end hn], by simp,
        List.forall_mem_nil _, fun _ hu => absurd hu (Option.not_mem_none _),
        fun _ => TermSource.toList_of_end hn⟩
  | faulted s rest e hn _ =>
      rw [takeGroup_of_error source d hn] at h
      cases h
  | yielded s rest t hn ih =>
      rw [takeGroup_of_some source d hn] at h
      rw [TermSource.toList_of_some hn]
      split at h
      · rename_i ht
        obtain ⟨run, items, rfl, ids, ends, last⟩ := ih h
        exact ⟨t :: run, by simp [items], by simp, List.forall_mem_cons.mpr ⟨ht, ids⟩, ends, last⟩
      · rename_i ht
        cases h
        exact ⟨[], rfl, by simp, List.forall_mem_nil _, fun _ hu => by cases hu; exact ht,
          fun none => absurd none (Option.some_ne_none _)⟩

theorem takeGroup_error {source : UInt32} {d : Descriptor} {s s' : σ} {e : Error}
    (h : takeGroup source d s = (.error e, s')) :
    ∃ run : List Term, TermSource.toList s = run.map .ok ++ .error e :: TermSource.toList s' ∧
      ∀ t ∈ run, t.id = d.id := by
  induction s using TermSource.induction generalizing d with
  | finished s rest hn =>
      rw [takeGroup_of_none source d hn] at h
      cases h
  | faulted s rest e' hn _ =>
      rw [takeGroup_of_error source d hn] at h
      cases h
      exact ⟨[], TermSource.toList_of_some hn, List.forall_mem_nil _⟩
  | yielded s rest t hn ih =>
      rw [takeGroup_of_some source d hn] at h
      split at h
      · rename_i ht
        obtain ⟨run, items, ids⟩ := ih h
        refine ⟨t :: run, ?_, List.forall_mem_cons.mpr ⟨ht, ids⟩⟩
        rw [TermSource.toList_of_some hn, items]
        rfl
      · cases h

theorem pull_none [FusedSource σ] {g g' : Grouping σ} (h : g.pull = (none, g'))
    (hd : g.done = false) : g.pending = [] ∧ TermSource.toList g'.inner = [] := by
  simp only [pull] at h
  split at h
  · cases h
  · rename_i hl
    have hn : (TermSource.next g.inner).1 = none := congrArg Prod.fst h
    have hg : { g with inner := (TermSource.next g.inner).2 } = g' := congrArg Prod.snd h
    subst hg
    rw [pending_of_not_done hd, hl]
    exact ⟨TermSource.toList_of_none (Prod.ext hn rfl), TermSource.toList_of_end (Prod.ext hn rfl)⟩

theorem pull_some {g g' : Grouping σ} {x : Except Error Term} (h : g.pull = (some x, g'))
    (hd : g.done = false) :
    g.pending = x :: TermSource.toList g'.inner ∧ g'.source = g.source ∧ g'.done = false := by
  simp only [pull] at h
  rw [pending_of_not_done hd]
  split at h
  · rename_i t hl
    cases h
    exact ⟨by simp [hl], rfl, hd⟩
  · rename_i hl
    have hn : (TermSource.next g.inner).1 = some x := congrArg Prod.fst h
    have hg : { g with inner := (TermSource.next g.inner).2 } = g' := congrArg Prod.snd h
    subst hg
    rw [hl, TermSource.toList_of_some (Prod.ext hn rfl)]
    exact ⟨rfl, rfl, hd⟩

/-- A grouping that yields nothing is done, and has read its source to the end. -/
theorem next_none [FusedSource σ] {g g' : Grouping σ} (h : g.next = (none, g')) :
    g.pending = [] ∧ g'.done = true ∧ (g.done = false → TermSource.toList g'.inner = []) := by
  by_cases hd : g.done = true
  · rw [next, if_pos hd] at h
    cases h
    exact ⟨pending_of_done hd, hd, fun going => absurd (hd.symm.trans going) Bool.noConfusion⟩
  · rcases hp : g.pull with ⟨_ | (e | t), g₁⟩
    · rw [next, if_neg hd, hp] at h
      cases h
      obtain ⟨nothing, ended⟩ := pull_none hp (by simpa using hd)
      exact ⟨nothing, rfl, fun _ => ended⟩
    · rw [next, if_neg hd, hp] at h
      cases h
    · rw [next_of_pull hd hp] at h
      split at h <;> cases h

/-- A fault ends the grouping, with the run it stands in. What comes after it is left unread. -/
theorem next_error {g g' : Grouping σ} {e : Error} (h : g.next = (some (.error e), g')) :
    ∃ run, g.pending = List.map .ok run ++ .error e :: TermSource.toList g'.inner ∧
      (∀ t ∈ run, ∀ u ∈ run, t.id = u.id) ∧ g'.done = true := by
  by_cases hd : g.done = true
  · rw [next, if_pos hd] at h
    cases h
  · have hd' : g.done = false := by simpa using hd
    rcases hp : g.pull with ⟨_ | (e' | t), g₁⟩
    · rw [next, if_neg hd, hp] at h
      cases h
    · rw [next, if_neg hd, hp] at h
      cases h
      exact ⟨[], (pull_some hp hd').1, fun _ ht => absurd ht List.not_mem_nil, rfl⟩
    · rw [next_of_pull hd hp] at h
      split at h
      · rename_i hg
        cases h
        obtain ⟨run, items, ids⟩ := takeGroup_error hg
        refine ⟨t :: run, by rw [(pull_some hp hd').1, items]; rfl, ?_, rfl⟩
        have all : ∀ u ∈ t :: run, u.id = t.id := List.forall_mem_cons.mpr ⟨rfl, ids⟩
        exact fun u hu v hv => (all u hu).trans (all v hv).symm
      · cases h

/-- A descriptor is the run that comes first, and what follows is of another id. -/
theorem next_ok [FusedSource σ] {g g' : Grouping σ} {d : Descriptor}
    (h : g.next = (some (.ok d), g')) :
    ∃ run : List Term, run ≠ [] ∧ g.pending = run.map .ok ++ g'.pending ∧
      d.postings = run.map (Posting.ofTerm · g.source) ∧ (∀ t ∈ run, t.id = d.id) ∧
      g'.source = g.source ∧ (∀ x ∈ g'.pending.head?, ∃ t, x = .ok t ∧ t.id ≠ d.id) ∧
      g'.done = false := by
  by_cases hd : g.done = true
  · rw [next, if_pos hd] at h
    cases h
  · rcases hp : g.pull with ⟨_ | (e | t), g₁⟩
    · rw [next, if_neg hd, hp] at h
      cases h
    · rw [next, if_neg hd, hp] at h
      cases h
    · obtain ⟨first, hsource, hdone⟩ := pull_some hp (by simpa using hd)
      rw [next_of_pull hd hp] at h
      split at h
      · cases h
      · rename_i after inner hg
        cases h
        obtain ⟨run, items, rfl, ids, ends, rest⟩ := takeGroup_ok hg
        have left : pending { g₁ with inner := inner, lookahead := after } =
            after.toList.map .ok ++ TermSource.toList inner := pending_of_not_done hdone
        rw [left]
        refine ⟨t :: run, List.cons_ne_nil _ _, by rw [first, items]; rfl, by simp [hsource],
          List.forall_mem_cons.mpr ⟨rfl, ids⟩, hsource, ?_, hdone⟩
        intro x hx
        cases after with
        | none => simp [rest rfl] at hx
        | some u =>
            cases hx
            exact ⟨u, rfl, ends u rfl⟩

end TermStats.Grouping
