import TermStats.Proofs.Term.MergeResult
import TermStats.Proofs.Term.Progress

/-!
What the equality of two states of a merge says. It compares how far the cursors have been read,
not the heads and the terms that the sources hold. Between two equal states no cursor moves, so the
steps from one to the other only use up heads.
-/

namespace TermStats.Merge

open MergeSource

section Heads

variable {σ : Type}

/-- The descriptors that the sources have looked up. -/
def heads (m : Merge σ) : List Descriptor :=
  m.sources.filterMap (·.head)

/-- A descriptor with the postings of all heads of its id, of which there are some. -/
def MadeOf (heads : List Descriptor) (d : Descriptor) : Prop :=
  (∃ head ∈ heads, head.id = d.id) ∧ d.postings = (heads.filter (·.id = d.id)).flatMap (·.postings)

/-- The heads of one id do not matter to a descriptor of another. -/
theorem MadeOf.of_filter {heads : List Descriptor} {id : TermId} {d : Descriptor}
    (h : MadeOf (heads.filter (·.id ≠ id)) d) : MadeOf heads d := by
  obtain ⟨⟨head, hhead, hid⟩, postings⟩ := h
  obtain ⟨mem, other⟩ := List.mem_filter.mp hhead
  have differs : d.id ≠ id := by simpa [hid] using other
  refine ⟨⟨head, mem, hid⟩, ?_⟩
  rw [postings, List.filter_filter]
  refine congrArg (List.flatMap _) (List.filter_congr fun head _ => ?_)
  by_cases same : head.id = d.id <;> simp [same, differs]

theorem flatMap_postingsOf (id : TermId) (ss : List (MergeSource σ)) :
    ss.flatMap (·.postingsOf id) =
      ((ss.filterMap (·.head)).filter (·.id = id)).flatMap (·.postings) := by
  induction ss with
  | nil => rfl
  | cons s rest ih =>
      rw [List.flatMap_cons, postingsOf, ih]
      cases hs : s.head with
      | none => simp [hs]
      | some head => by_cases same : head.id = id <;> simp [hs, same]

theorem filterMap_head_dropHead (id : TermId) (ss : List (MergeSource σ)) :
    (ss.map (dropHead id)).filterMap (·.head) = (ss.filterMap (·.head)).filter (·.id ≠ id) := by
  induction ss with
  | nil => rfl
  | cons s rest ih =>
      rw [List.map_cons, List.filterMap_cons, List.filterMap_cons, ih, dropHead, hasHead]
      cases hs : s.head with
      | none => simp [hs]
      | some head => by_cases same : head.id = id <;> simp [hs, same]

theorem groups_dropHead (id : TermId) (s : MergeSource σ) : (s.dropHead id).groups = s.groups := by
  simp only [dropHead]
  split <;> rfl

end Heads

section Steps

variable {σ : Type} [TermSource σ] {m m' : Merge σ} {d : Descriptor}

/-- A step that yields uses up the heads of one id, once the sources have looked theirs up. -/
theorem next_uses_heads (h : m.next = (some (.ok d), m')) : ∃ ss,
    fillAll m.sources = (.ok (), ss) ∧ unread m'.sources = unread ss ∧
      d.postings = ((ss.filterMap (·.head)).filter (·.id = d.id)).flatMap (·.postings) ∧
      m'.heads = (ss.filterMap (·.head)).filter (·.id ≠ d.id) ∧
      (∃ head ∈ ss.filterMap (·.head), head.id = d.id) ∧ m'.current = d ∧ m'.done = false := by
  rw [next_eq] at h
  split at h
  · cases h
  · split at h
    · cases h
    · rename_i ss hf
      split at h
      · cases h
      · rename_i id hl
        cases h
        refine ⟨ss, hf, ?_, (Descriptor.postings_ofPostings id _).trans (flatMap_postingsOf id ss),
          filterMap_head_dropHead id ss, ?_, rfl, rfl⟩
        · simp only [unread, List.map_map, Function.comp_def, groups_dropHead]
        · obtain ⟨s, hs, hid⟩ := List.mem_filterMap.mp (mem_of_leastId hl)
          obtain ⟨head, hhead, rfl⟩ := Option.map_eq_some_iff.mp hid
          exact ⟨head, List.mem_filterMap.mpr ⟨s, hs, hhead⟩, rfl⟩

theorem done_of_next (h : ∀ d, m.next.1 ≠ some (.ok d)) : m.next.2.done = true := by
  rw [next_eq] at h ⊢
  split
  · assumption
  · rename_i hd
    rw [if_neg hd] at h
    split
    · rfl
    · rename_i hf
      rw [hf] at h
      split
      · rfl
      · rename_i hl
        simp only [hl] at h
        exact absurd rfl (h _)

theorem exists_of_not_done (h : m.next.2.done = false) :
    ∃ d, m.next = (some (.ok d), m.next.2) := by
  by_cases hx : ∃ d, m.next.1 = some (.ok d)
  · obtain ⟨d, hd⟩ := hx
    exact ⟨d, Prod.ext hd rfl⟩
  · rw [done_of_next fun d hd => hx ⟨d, hd⟩] at h
    cases h

theorem allAdvance_next (m : Merge σ) : AllAdvance m.sources m.next.2.sources := by
  have filled := allAdvance_fillAll m.sources
  rw [next_eq]
  split
  · exact .refl _
  · split
    · rename_i hf
      rw [hf] at filled
      exact filled.trans (.map (f := ({ · with head := none })) (fun _ => rfl) _)
    · rename_i hf
      rw [hf] at filled
      split
      · exact filled.trans (.map (f := ({ · with head := none })) (fun _ => rfl) _)
      · exact filled.trans (.map (groups_dropHead _) _)

theorem allAdvance_after (m : Merge σ) (steps : Nat) :
    AllAdvance m.sources (m.after steps).sources := by
  induction steps generalizing m with
  | zero => exact .refl _
  | succ steps ih => exact (allAdvance_next m).trans (ih _)

theorem after_add (m : Merge σ) (k l : Nat) : m.after (k + l) = (m.after k).after l := by
  induction k generalizing m with
  | zero => rw [Nat.zero_add]; rfl
  | succ k ih =>
      rw [Nat.succ_add]
      exact ih m.next.2

/-- The sources of a merge learn that they are at their ends only when they are asked for more. -/
def Poised (m : Merge σ) : Prop :=
  ∀ s ∈ m.sources, s.groups.Poised

variable [ProbingSource σ]

theorem poised_next (poised : m.Poised) : m.next.2.Poised := by
  have filled := poised_fillAll poised
  rw [next_eq]
  split
  · exact poised
  · split
    · rename_i hf
      rw [hf] at filled
      exact List.forall_mem_map.mpr filled
    · rename_i hf
      rw [hf] at filled
      split
      · exact List.forall_mem_map.mpr filled
      · refine List.forall_mem_map.mpr fun s hs => ?_
        rw [groups_dropHead]
        exact filled s hs

theorem poised_after (poised : m.Poised) (steps : Nat) : (m.after steps).Poised := by
  induction steps generalizing m with
  | zero => exact poised
  | succ steps ih => exact ih (poised_next poised)

/-- A step that reads nothing yields heads that were there before. -/
theorem next_uses_own_heads (poised : m.Poised) (h : m.next = (some (.ok d), m'))
    (unmoved : unread m'.sources = unread m.sources) :
    MadeOf m.heads d ∧ m'.heads = m.heads.filter (·.id ≠ d.id) := by
  obtain ⟨ss, hf, left, postings, hheads, some, _, _⟩ := next_uses_heads h
  have same : ss.filterMap (·.head) = m.heads := heads_fillAll poised hf (left.symm.trans unmoved)
  rw [same] at postings hheads some
  exact ⟨⟨some, postings⟩, hheads⟩

/-- Steps that read nothing use up heads, one or more for each descriptor. -/
theorem after_uses_own_heads (poised : m.Poised) {steps : Nat}
    (unfinished : (m.after steps).done = false)
    (unmoved : unread (m.after steps).sources = unread m.sources) :
    ∃ held : List Descriptor, m.items = held.map .ok ++ (m.after steps).items ∧
      (∀ d ∈ held, MadeOf m.heads d) ∧ held.length ≤ m.heads.length ∧
      (m.after steps).current = held.getLast?.getD m.current := by
  induction steps generalizing m with
  | zero => exact ⟨[], rfl, nofun, Nat.zero_le _, rfl⟩
  | succ steps ih =>
      have going : m.next.2.done = false := by
        by_contra finished
        have finished : m.next.2.done = true := by simpa using finished
        rw [after, after_done finished, finished] at unfinished
        cases unfinished
      obtain ⟨d, hn⟩ := exists_of_not_done going
      have further := (allAdvance_after m.next.2 steps).unread_le
      have unmoved₁ : unread m.next.2.sources = unread m.sources :=
        Nat.le_antisymm (allAdvance_next m).unread_le (unmoved ▸ further)
      obtain ⟨made, left⟩ := next_uses_own_heads poised hn unmoved₁
      obtain ⟨held, items, mades, few, current⟩ :=
        ih (poised_next poised) unfinished (unmoved.trans unmoved₁.symm)
      rw [left] at mades few
      have fewer : (m.heads.filter (·.id ≠ d.id)).length < m.heads.length := by
        obtain ⟨⟨head, mem, hid⟩, _⟩ := made
        exact List.length_filter_lt_length_iff_exists.mpr ⟨head, mem, by simp [hid]⟩
      refine ⟨d :: held, ?_, ?_, Nat.lt_of_le_of_lt few fewer, ?_⟩
      · rw [items_of_some hn, items]
        rfl
      · exact List.forall_mem_cons.mpr ⟨made, fun d' hd => (mades d' hd).of_filter⟩
      · obtain ⟨_, _, _, _, _, _, hcurrent, _⟩ := next_uses_heads hn
        rw [after, current, hcurrent, List.getLast?_cons, Option.getD_some]

end Steps

theorem unread_of_all_same {ss ts : List (MergeSource Cursor)} (reads : AllAdvance ss ts)
    (h : ((ss.zip ts).all fun (s, t) => s.groups.inner.terms.same t.groups.inner.terms) = true) :
    unread ts = unread ss := by
  induction reads with
  | nil => rfl
  | cons reads _ ih =>
      simp only [List.zip_cons_cons, List.all_cons, Bool.and_eq_true] at h
      have here := Cursor.size_of_same (SplitTerms.advances_terms reads) h.1
      exact congrArg₂ (· + ·) here (ih h.2)

/-- Equal states of a merge are both finished, or have as much left to read. -/
theorem unread_of_same {m m' : Merge Cursor} (reads : AllAdvance m.sources m'.sources)
    (h : m.same m' = true) :
    (m.done = true ∧ m'.done = true) ∨
      (m.done = false ∧ m'.done = false ∧ unread m'.sources = unread m.sources) := by
  simp only [same] at h
  split at h
  · rename_i finished
    have equal := eq_of_beq h
    rw [equal, Bool.or_self] at finished
    exact .inl ⟨equal.trans finished, finished⟩
  · rename_i unfinished
    simp only [Bool.not_eq_true, Bool.or_eq_false_iff] at unfinished
    rw [Bool.and_eq_true] at h
    exact .inr ⟨unfinished.1, unfinished.2, unread_of_all_same reads h.2⟩

theorem same_comm (m m' : Merge Cursor) : m.same m' = m'.same m := by
  have zips (ss ts : List (MergeSource Cursor)) :
      ((ss.zip ts).all fun (s, t) => s.groups.inner.terms.same t.groups.inner.terms) =
        (ts.zip ss).all fun (s, t) => s.groups.inner.terms.same t.groups.inner.terms := by
    induction ss generalizing ts with
    | nil => cases ts <;> rfl
    | cons s ss ih =>
        cases ts with
        | nil => rfl
        | cons t ts =>
            simp only [List.zip_cons_cons, List.all_cons, ih ts,
              Cursor.same_comm s.groups.inner.terms]
  simp only [same, zips m.sources, Bool.or_comm m.done, Bool.beq_comm (a := m.done),
    Bool.beq_comm (a := m.sources.length)]

section Sources

variable {sources : List (UInt32 × SplitTerms Cursor)}

theorem poised_ofSources (sources : List (UInt32 × SplitTerms Cursor)) :
    (ofSources sources).Poised := by
  intro s hs
  obtain ⟨source, _, rfl⟩ := List.mem_map.mp hs
  exact nofun

/-- The heads behind a step are of other ids than the descriptor of the step, and one source at
least has none. -/
theorem heads_after {steps : Nat} (unfinished : ((ofSources sources).after steps).done = false) :
    (∀ head ∈ ((ofSources sources).after steps).heads,
        head.id ≠ ((ofSources sources).after steps).current.id) ∧
      ((ofSources sources).after steps).heads.length < sources.length := by
  cases steps with
  | zero =>
      have none : ((ofSources sources).after 0).heads = [] := by
        rw [after, heads, ofSources, List.filterMap_map]
        exact List.filterMap_eq_nil_iff.mpr fun _ _ => rfl
      have some : sources ≠ [] := by
        rintro rfl
        cases unfinished
      rw [none]
      exact ⟨List.forall_mem_nil _, List.length_pos_iff.mpr some⟩
  | succ steps =>
      have goes : (ofSources sources).after (steps + 1) =
          ((ofSources sources).after steps).next.2 := after_add ..
      rw [goes] at unfinished ⊢
      obtain ⟨d, hn⟩ := exists_of_not_done unfinished
      obtain ⟨ss, hf, _, _, left, ⟨head, mem, hid⟩, current, _⟩ := next_uses_heads hn
      have filled := allAdvance_fillAll ((ofSources sources).after steps).sources
      rw [hf] at filled
      have length : ss.length = sources.length := by
        rw [← filled.length_eq, ← (allAdvance_after _ steps).length_eq, ofSources, List.length_map]
      rw [left, current]
      refine ⟨fun other h => by simpa using (List.mem_filter.mp h).2, ?_⟩
      have used : ((ss.filterMap (·.head)).filter (·.id ≠ d.id)).length <
          (ss.filterMap (·.head)).length :=
        List.length_filter_lt_length_iff_exists.mpr ⟨head, mem, by simp [hid]⟩
      exact Nat.lt_of_lt_of_le used (length ▸ List.length_filterMap_le ..)

theorem held_of_same {m n : Nat} (le : m ≤ n)
    (h : ((ofSources sources).after m).same ((ofSources sources).after n) = true) :
    ∃ held : List Descriptor,
      ((ofSources sources).after m).items =
        held.map .ok ++ ((ofSources sources).after n).items ∧
      (∀ d ∈ held, MadeOf ((ofSources sources).after m).heads d) ∧
      (held = [] ∨ held.length < sources.length) ∧
      (held = [] ↔
        ((ofSources sources).after m).current = ((ofSources sources).after n).current) := by
  obtain ⟨steps, rfl⟩ := Nat.exists_eq_add_of_le le
  have further := allAdvance_after ((ofSources sources).after m) steps
  rw [← after_add] at further
  rcases unread_of_same further h with ⟨done, _⟩ | ⟨going, going', unmoved⟩
  · rw [after_add, after_done done]
    exact ⟨[], rfl, nofun, .inl rfl, by simp⟩
  · rw [after_add] at going' unmoved ⊢
    obtain ⟨others, few⟩ := heads_after going
    obtain ⟨held, items, made, few', current⟩ :=
      after_uses_own_heads (poised_after (poised_ofSources sources) m) going' unmoved
    refine ⟨held, items, made, .inr (Nat.lt_of_le_of_lt few' few), ?_⟩
    rw [current]
    refine ⟨fun none => by rw [none]; rfl, fun equal => ?_⟩
    cases hlast : held.getLast? with
    | none => exact List.getLast?_eq_none_iff.mp hlast
    | some d =>
        obtain ⟨⟨head, mem, hid⟩, _⟩ := made d (List.mem_of_getLast? hlast)
        rw [hlast, Option.getD_some] at equal
        exact absurd (hid.trans (congrArg (·.id) equal.symm)) (others head mem)

end Sources

/-- Of two equal states of a merge, the one with fewer steps behind it still yields some descriptors
of heads that its sources hold, less than one for each source, and from there on the two yield the
same. There are none exactly when the current descriptors are the same. -/
theorem same_merges_differ_by_heads (sources : List (UInt32 × SplitTerms Cursor)) (m n : Nat)
    (h : ((ofSources sources).after m).same ((ofSources sources).after n) = true) :
    (∃ held : List Descriptor,
      ((ofSources sources).after (min m n)).items =
        held.map .ok ++ ((ofSources sources).after (max m n)).items ∧
      (∀ d ∈ held, MadeOf ((ofSources sources).after (min m n)).heads d) ∧
      (held = [] ∨ held.length < sources.length)) ∧
    (((ofSources sources).after m).items = ((ofSources sources).after n).items ↔
      ((ofSources sources).after m).current = ((ofSources sources).after n).current) := by
  rcases Nat.le_total m n with le | le
  · obtain ⟨held, items, made, few, none⟩ := held_of_same le h
    rw [Nat.min_eq_left le, Nat.max_eq_right le]
    refine ⟨⟨held, items, made, few⟩, ?_⟩
    rw [← none, items]
    simp
  · rw [same_comm] at h
    obtain ⟨held, items, made, few, none⟩ := held_of_same le h
    rw [Nat.min_eq_right le, Nat.max_eq_left le]
    refine ⟨⟨held, items, made, few⟩, ?_⟩
    rw [eq_comm, eq_comm (a := ((ofSources sources).after m).current), ← none, items]
    simp

/-- A file of the id 1 and one of the ids 2 and 3. All of both is read to know the heads 1 and 2, so
neither cursor moves between the first two steps. -/
def aheadSources : List (UInt32 × SplitTerms Cursor) :=
  [(0, .all (.ofFile ⟨⟨0, 0⟩, "a", "f", .int, [1, 0, 1]⟩)),
    (1, .all (.ofFile ⟨⟨0, 1⟩, "b", "f", .int, [2, 0, 1, 1, 1, 1]⟩))]

theorem same_with_more_to_come :
    (∀ s ∈ aheadSources, s.2.terms.Reachable) ∧
      (∀ s ∈ aheadSources, ∀ x ∈ TermSource.toList s.2, ∃ t, x = .ok t) ∧
      ((ofSources aheadSources).after 1).same ((ofSources aheadSources).after 2) = true ∧
      ((ofSources aheadSources).after 1).items =
        [.ok (.ofPostings (.int 2) [⟨0, 1, 1⟩]), .ok (.ofPostings (.int 3) [⟨1, 1, 1⟩])] ∧
      ((ofSources aheadSources).after 2).items = [.ok (.ofPostings (.int 3) [⟨1, 1, 1⟩])] := by
  refine ⟨List.forall_mem_cons.mpr ⟨.ofFile _, List.forall_mem_singleton.mpr (.ofFile _)⟩, ?_,
    by decide +kernel, by decide +kernel, by decide +kernel⟩
  have all : ∀ s ∈ aheadSources, ∀ x ∈ TermSource.toList s.2, x.isOk := by decide +kernel
  intro s hs x hx
  cases x with
  | ok t => exact ⟨t, rfl⟩
  | error e => exact absurd (all s hs _ hx) Bool.false_ne_true

theorem same_merges_differ_by_heads_ahead :
    ((ofSources aheadSources).after 1).same ((ofSources aheadSources).after 2) = true ∧
      (∃ held : List Descriptor, held.length = 1 ∧
        ((ofSources aheadSources).after 1).items =
          held.map .ok ++ ((ofSources aheadSources).after 2).items ∧
        ∀ d ∈ held, MadeOf ((ofSources aheadSources).after 1).heads d) ∧
      ((ofSources aheadSources).after 1).items ≠ ((ofSources aheadSources).after 2).items := by
  have equal : ((ofSources aheadSources).after 1).same ((ofSources aheadSources).after 2) = true :=
    by decide +kernel
  have moved : ((ofSources aheadSources).after 1).current ≠
      ((ofSources aheadSources).after 2).current := by decide +kernel
  obtain ⟨⟨held, items, made, few⟩, iff⟩ := same_merges_differ_by_heads aheadSources 1 2 equal
  have differ := fun h => moved (iff.mp h)
  refine ⟨equal, ⟨held, ?_, items, made⟩, differ⟩
  have some : held ≠ [] := by
    rintro rfl
    exact differ items
  have least := List.length_pos_iff.mpr some
  have most : held.length < 2 := few.resolve_left some
  omega

end TermStats.Merge
