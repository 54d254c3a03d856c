import TermStats.Proofs.Order
import TermStats.Proofs.Term.Runs
import TermStats.Term.Merge

/-!
A merge as a multiset of postings by id. Each step takes all postings of the least id, whichever
sources hold them, and leaves the rest; the heads that a step has looked up and the terms not yet
read count alike. A merge without faults therefore lists its postings id by id, and one with faults
does so up to the first that it meets.
-/

namespace TermStats

/-- The postings of some ids, gathered into one descriptor for each id, in ascending order. -/
def collect (entries : List (TermId × Posting)) : List Descriptor :=
  (distinct (entries.map (·.1))).map fun id =>
    .ofPostings id ((entries.filter (·.1 = id)).map (·.2))

theorem collect_nil : collect [] = [] := rfl

/-- The least id comes first, and the others do not change. -/
theorem collect_of_least {entries : List (TermId × Posting)} {id : TermId}
    (mem : ∃ e ∈ entries, e.1 = id) (least : ∀ e ∈ entries, id ≤ e.1) :
    collect entries = .ofPostings id ((entries.filter (·.1 = id)).map (·.2)) ::
      collect (entries.filter (·.1 ≠ id)) := by
  have hmem : id ∈ entries.map (·.1) := List.mem_map.mpr mem
  have hleast : ∀ b ∈ entries.map (·.1), id ≤ b := by
    intro b hb
    obtain ⟨e, he, rfl⟩ := List.mem_map.mp hb
    exact least e he
  have others : (entries.map (·.1)).filter (· ≠ id) = (entries.filter (·.1 ≠ id)).map (·.1) :=
    List.filter_map
  unfold collect
  rw [distinct_of_least hmem hleast, List.map_cons, others]
  refine congrArg _ (List.map_congr_left fun other ho => ?_)
  obtain ⟨e, he, rfl⟩ := List.mem_map.mp (mem_distinct.mp ho)
  have hne : e.1 ≠ id := by simpa using (List.mem_filter.mp he).2
  rw [List.filter_filter]
  have same : ∀ x ∈ entries, decide (x.1 = e.1) = (decide (x.1 = e.1) && decide (x.1 ≠ id)) := by
    intro x _
    by_cases hx : x.1 = e.1 <;> simp [hx, hne]
  rw [List.filter_congr same]

/-- Gathering the postings of the ids that are kept gives their descriptors, as they are. -/
theorem collect_filter (keep : TermId → Bool) (entries : List (TermId × Posting)) :
    collect (entries.filter (keep ·.1)) = (collect entries).filter (keep ·.id) := by
  have ids : (entries.filter (keep ·.1)).map (·.1) = (entries.map (·.1)).filter keep :=
    List.filter_map.symm
  unfold collect
  rw [ids, ← filter_distinct, List.filter_map]
  refine List.map_congr_left fun id hid => ?_
  have kept : keep id = true := (List.mem_filter.mp hid).2
  have same : ∀ e ∈ entries, (decide (e.1 = id) && keep e.1) = decide (e.1 = id) := by
    intro e _
    by_cases he : e.1 = id <;> simp [he, kept]
  rw [List.filter_filter, List.filter_congr same]

theorem leastId_eq_none {ids : List TermId} (h : leastId ids = none) : ids = [] := by
  cases ids with
  | nil => rfl
  | cons a rest =>
      simp only [leastId] at h
      split at h <;> cases h

theorem leastId_le {ids : List TermId} {id : TermId} (h : leastId ids = some id) :
    ∀ a ∈ ids, id ≤ a := by
  induction ids generalizing id with
  | nil => exact nofun
  | cons a rest ih =>
      simp only [leastId] at h
      split at h
      · rename_i hl
        cases h
        rw [leastId_eq_none hl]
        exact List.forall_mem_singleton.mpr (Std.le_refl a)
      · rename_i least hl
        cases h
        have hrest := ih hl
        refine List.forall_mem_cons.mpr ⟨?_, fun b hb => ?_⟩
        · split <;> grind
        · have := hrest b hb
          split <;> grind

namespace MergeSource

variable {σ : Type} [TermSource σ]

/-- The postings still to come, with their ids: those of the head first. -/
def entries (s : MergeSource σ) : List (TermId × Posting) :=
  (s.head.toList.flatMap fun d => d.postings.map (d.id, ·)) ++
    if s.exhausted then []
    else (beforeFault s.groups.pending).map fun t => (t.id, .ofTerm t s.groups.source)

/-- The fault that comes after them. -/
def fault? (s : MergeSource σ) : Option Error :=
  if s.exhausted then none else firstFault? s.groups.pending

/-- Terms ascend, and the head has all terms of its id. -/
structure Ordered (s : MergeSource σ) : Prop where
  ascends : (beforeFault s.groups.pending).Pairwise (·.id ≤ ·.id)
  head_lt : ∀ d ∈ s.head, ∀ t ∈ beforeFault s.groups.pending, d.id < t.id
  head_ne : ∀ d ∈ s.head, d.postings ≠ []

/-- A source without a head has nothing more to come. -/
def Filled (s : MergeSource σ) : Prop :=
  s.head = none → s.entries = [] ∧ s.fault? = none

/-- The terms after a run are above it: the first is of another id, and the others are not below
that. -/
theorem lt_of_follows {id : TermId} {run : List Term} {pending : List (Except Error Term)}
    (hne : run ≠ []) (ids : ∀ t ∈ run, t.id = id)
    (ascends : (run ++ beforeFault pending).Pairwise (·.id ≤ ·.id))
    (follows : ∀ x, pending.head? = some x → ∃ t, x = .ok t ∧ t.id ≠ id) :
    ∀ t ∈ beforeFault pending, id < t.id := by
  obtain ⟨_, rest, across⟩ := List.pairwise_append.mp ascends
  obtain ⟨first, hfirst⟩ := List.exists_mem_of_ne_nil run hne
  cases pending with
  | nil => exact nofun
  | cons x more =>
      obtain ⟨u, rfl, hu⟩ := follows x rfl
      have hlt : id < u.id := by
        have hle := across first hfirst u List.mem_cons_self
        rw [ids first hfirst] at hle
        exact Std.lt_of_le_of_ne hle (Ne.symm hu)
      refine List.forall_mem_cons.mpr ⟨hlt, fun t ht => ?_⟩
      exact Std.lt_of_lt_of_le hlt ((List.pairwise_cons.mp rest).1 t ht)

theorem fill_ok [FusedSource σ] {s s' : MergeSource σ} (h : s.fill = (.ok (), s'))
    (ordered : s.Ordered) :
    s'.Ordered ∧ s'.Filled ∧ s'.entries = s.entries ∧ s'.fault? = s.fault? := by
  simp only [fill] at h
  split at h
  · rename_i hhead hex
    split at h
    · rename_i d groups hn
      cases h
      obtain ⟨run, hne, items, postings, ids, hsource, follows, _⟩ := Grouping.next_ok hn
      have before : beforeFault s.groups.pending = run ++ beforeFault groups.pending := by
        rw [items, beforeFault_append]
      have ascends := ordered.ascends
      rw [before] at ascends
      have above := lt_of_follows hne ids ascends follows
      have rest := (List.pairwise_append.mp ascends).2.1
      have head : d.postings.map (d.id, ·) =
          run.map fun t => (t.id, Posting.ofTerm t s.groups.source) := by
        rw [postings, List.map_map]
        exact List.map_congr_left fun t ht => by rw [Function.comp, ids t ht]
      refine ⟨⟨rest, fun _ hd => ?_, fun _ hd => ?_⟩,
        fun none => absurd none (Option.some_ne_none d), ?_, ?_⟩
      · cases hd
        exact above
      · cases hd
        rw [postings]
        simpa using hne
      · simp [entries, hhead, hex, before, head, hsource]
      · simp [fault?, hex, items, firstFault?_append]
    · cases h
    · rename_i groups hn
      cases h
      obtain ⟨hpending, hdone, _⟩ := Grouping.next_none hn
      have hpending' := Grouping.pending_of_done hdone
      have hentries : s.entries = [] := by simp [entries, hhead, hpending, beforeFault]
      have hfault : s.fault? = none := by simp [fault?, hpending, firstFault?]
      have hentries' : entries { s with groups := groups, exhausted := true } = [] := by
        simp [entries, hhead]
      refine ⟨⟨by simp [hpending', beforeFault], by simp [hhead], by simp [hhead]⟩,
        fun _ => ⟨hentries', rfl⟩, hentries'.trans hentries.symm, hfault.symm⟩
  · rename_i hother
    cases h
    refine ⟨ordered, ?_, rfl, rfl⟩
    intro hhead
    have hex : s.exhausted = true := by simpa using hother hhead
    exact ⟨by simp [entries, hhead, hex], by simp [fault?, hex]⟩

theorem fill_error {s s' : MergeSource σ} {e : Error} (h : s.fill = (.error e, s')) :
    s.fault? = some e := by
  simp only [fill] at h
  split at h
  · rename_i hex
    split at h
    · cases h
    · rename_i hn
      cases h
      obtain ⟨run, items, _⟩ := Grouping.next_error hn
      simp [fault?, hex, items, firstFault?_append, firstFault?]
    · cases h
  · cases h

theorem fillAll_ok [FusedSource σ] {ss ss' : List (MergeSource σ)}
    (h : fillAll ss = (.ok (), ss')) (ordered : ∀ s ∈ ss, s.Ordered) :
    (∀ s ∈ ss', s.Ordered ∧ s.Filled) ∧ ss'.map entries = ss.map entries ∧
      ss'.map fault? = ss.map fault? := by
  induction ss generalizing ss' with
  | nil =>
      cases h
      exact ⟨nofun, rfl, rfl⟩
  | cons s rest ih =>
      obtain ⟨os, orest⟩ := List.forall_mem_cons.mp ordered
      simp only [fillAll] at h
      split at h
      · cases h
      · rename_i hf
        obtain ⟨os', filled, hentries, hfault⟩ := fill_ok hf os
        cases hr : fillAll rest with
        | mk x rest' =>
            rw [hr] at h
            cases h
            obtain ⟨all, hentries', hfault'⟩ := ih hr orest
            exact ⟨List.forall_mem_cons.mpr ⟨⟨os', filled⟩, all⟩, by simp [hentries, hentries'],
              by simp [hfault, hfault']⟩

theorem fillAll_error [FusedSource σ] {ss ss' : List (MergeSource σ)} {e : Error}
    (h : fillAll ss = (.error e, ss')) : ∃ s ∈ ss, s.fault? = some e := by
  induction ss generalizing ss' with
  | nil => cases h
  | cons s rest ih =>
      simp only [fillAll] at h
      split at h
      · rename_i hf
        cases h
        exact ⟨s, List.mem_cons_self, fill_error hf⟩
      · cases hr : fillAll rest with
        | mk x rest' =>
            rw [hr] at h
            cases h
            obtain ⟨t, ht, he⟩ := ih hr
            exact ⟨t, List.mem_cons_of_mem _ ht, he⟩

/-- Where no head is below `id`, the postings of `id` are those of a head that has it. -/
theorem entries_of_notBelow {s : MergeSource σ} {id : TermId} (ordered : s.Ordered)
    (filled : s.Filled) (notBelow : ∀ d ∈ s.head, id ≤ d.id) :
    s.entries.filter (·.1 = id) = (s.postingsOf id).map (id, ·) ∧
      s.entries.filter (·.1 ≠ id) = (s.dropHead id).entries := by
  cases hh : s.head with
  | none =>
      have he := (filled hh).1
      simp [dropHead, hasHead, postingsOf, hh, he]
  | some d =>
      have behind : ∀ e ∈ entries { s with head := none }, e.1 ≠ id := by
        intro e he
        simp only [entries, Option.toList_none, List.flatMap_nil, List.nil_append] at he
        split at he
        · cases he
        · obtain ⟨t, ht, rfl⟩ := List.mem_map.mp he
          have hle := notBelow d hh
          have hlt := ordered.head_lt d hh t ht
          grind
      have hentries : s.entries = d.postings.map (d.id, ·) ++ entries { s with head := none } := by
        simp [entries, hh]
      have none_left : (entries { s with head := none }).filter (·.1 = id) = [] := by
        simpa [List.filter_eq_nil_iff] using behind
      have all_left : (entries { s with head := none }).filter (·.1 ≠ id) =
          entries { s with head := none } := by
        simpa [List.filter_eq_self] using behind
      rw [hentries, List.filter_append, List.filter_append, none_left, all_left, List.append_nil]
      by_cases hid : d.id = id
      · have passes : (d.postings.map (d.id, ·)).filter (·.1 = id) = d.postings.map (d.id, ·) := by
          simp [List.filter_eq_self, hid]
        have fails : (d.postings.map (d.id, ·)).filter (·.1 ≠ id) = [] := by
          simp [List.filter_eq_nil_iff, hid]
        rw [passes, fails]
        simp [dropHead, hasHead, postingsOf, hh, hid]
      · have passes : (d.postings.map (d.id, ·)).filter (·.1 ≠ id) = d.postings.map (d.id, ·) := by
          simp [List.filter_eq_self, hid]
        have fails : (d.postings.map (d.id, ·)).filter (·.1 = id) = [] := by
          simp [List.filter_eq_nil_iff, hid]
        rw [passes, fails]
        simp [dropHead, hasHead, postingsOf, hh, hid, hentries]

theorem fault?_dropHead (id : TermId) (s : MergeSource σ) : (s.dropHead id).fault? = s.fault? := by
  simp only [dropHead]
  split <;> rfl

theorem ordered_dropHead {s : MergeSource σ} (ordered : s.Ordered) (id : TermId) :
    (s.dropHead id).Ordered := by
  simp only [dropHead]
  split
  · exact ⟨ordered.ascends, fun d hd => absurd hd (Option.not_mem_none d),
      fun d hd => absurd hd (Option.not_mem_none d)⟩
  · exact ordered

/-- Over all sources, where no head is below `id`. -/
theorem flatMap_entries_of_notBelow {ss : List (MergeSource σ)} {id : TermId}
    (all : ∀ s ∈ ss, s.Ordered ∧ s.Filled) (notBelow : ∀ s ∈ ss, ∀ d ∈ s.head, id ≤ d.id) :
    ((ss.flatMap entries).filter (·.1 = id)).map (·.2) = ss.flatMap (postingsOf id) ∧
      (ss.flatMap entries).filter (·.1 ≠ id) = (ss.map (dropHead id)).flatMap entries := by
  have parts : ∀ s ∈ ss, _ := fun s hs =>
    entries_of_notBelow (all s hs).1 (all s hs).2 (notBelow s hs)
  refine ⟨?_, ?_⟩
  · rw [List.filter_flatMap, List.map_flatMap, List.flatMap_def, List.flatMap_def]
    refine congrArg _ (List.map_congr_left fun s hs => ?_)
    rw [(parts s hs).1, List.map_map]
    exact List.map_id _
  · rw [List.filter_flatMap, List.flatMap_map, List.flatMap_def, List.flatMap_def]
    exact congrArg _ (List.map_congr_left fun s hs => (parts s hs).2)

/-- A head's id is the id of a posting. -/
theorem mem_entries_of_head {s : MergeSource σ} {d : Descriptor} (ordered : s.Ordered)
    (h : s.head = some d) : ∃ e ∈ s.entries, e.1 = d.id := by
  obtain ⟨p, hp⟩ := List.exists_mem_of_ne_nil _ (ordered.head_ne d h)
  exact ⟨(d.id, p), by simp [entries, h, hp], rfl⟩

/-- The head has the least id of a source. -/
theorem le_of_mem_entries {s : MergeSource σ} {id : TermId} (ordered : s.Ordered)
    (filled : s.Filled) (notBelow : ∀ d ∈ s.head, id ≤ d.id) : ∀ e ∈ s.entries, id ≤ e.1 := by
  intro e he
  cases hh : s.head with
  | none => simp [(filled hh).1] at he
  | some d =>
      have hle := notBelow d hh
      simp only [entries, hh, Option.toList_some, List.flatMap_singleton, List.mem_append,
        List.mem_map] at he
      rcases he with ⟨p, _, rfl⟩ | he
      · exact hle
      · split at he
        · cases he
        · obtain ⟨t, ht, rfl⟩ := List.mem_map.mp he
          exact Std.le_trans hle (Std.le_of_lt (ordered.head_lt d hh t ht))

end MergeSource

namespace Merge

variable {σ : Type} [TermSource σ]

/-- The postings still to come from all sources, source by source. -/
def entries (m : Merge σ) : List (TermId × Posting) :=
  if m.done then [] else m.sources.flatMap MergeSource.entries

def faults (m : Merge σ) : List Error :=
  if m.done then [] else (m.sources.map MergeSource.fault?).filterMap id

def Ordered (m : Merge σ) : Prop :=
  ∀ s ∈ m.sources, s.Ordered

theorem next_error [FusedSource σ] {m m' : Merge σ} {e : Error}
    (h : m.next = (some (.error e), m')) :
    e ∈ m.faults ∧ m'.done = true ∧ m'.current = .empty := by
  rw [next_eq] at h
  split at h
  · cases h
  · rename_i hd
    split at h
    · rename_i hf
      cases h
      obtain ⟨s, hs, he⟩ := MergeSource.fillAll_error hf
      refine ⟨?_, rfl, rfl⟩
      rw [faults, if_neg hd]
      exact List.mem_filterMap.mpr ⟨some e, List.mem_map.mpr ⟨s, hs, he⟩, rfl⟩
    · split at h <;> cases h

/-- The state of a merge when its heads are known. -/
theorem fillAll_entries [FusedSource σ] {m : Merge σ} {ss : List (MergeSource σ)}
    (h : MergeSource.fillAll m.sources = (.ok (), ss)) (ordered : m.Ordered)
    (hd : ¬ m.done = true) :
    (∀ s ∈ ss, s.Ordered ∧ s.Filled) ∧ m.entries = ss.flatMap MergeSource.entries ∧
      m.faults = (ss.map MergeSource.fault?).filterMap id := by
  obtain ⟨all, hentries, hfaults⟩ := MergeSource.fillAll_ok h ordered
  refine ⟨all, ?_, ?_⟩
  · rw [entries, if_neg hd, List.flatMap_def, List.flatMap_def, hentries]
  · rw [faults, if_neg hd, hfaults]

theorem next_none [FusedSource σ] {m m' : Merge σ} (h : m.next = (none, m'))
    (ordered : m.Ordered) :
    m.entries = [] ∧ m.faults = [] ∧ m'.done = true ∧
      ((m.done = true → m.current = .empty) → m'.current = .empty) := by
  rw [next_eq] at h
  split at h
  · rename_i hd
    cases h
    exact ⟨if_pos hd, if_pos hd, hd, fun cleared => cleared hd⟩
  · rename_i hd
    split at h
    · cases h
    · rename_i ss hf
      split at h
      · rename_i hl
        cases h
        obtain ⟨all, hentries, hfaults⟩ := fillAll_entries hf ordered hd
        have heads : ∀ s ∈ ss, s.head = none := by
          intro s hs
          have hall := List.filterMap_eq_nil_iff.mp (leastId_eq_none hl) s hs
          simpa using hall
        refine ⟨?_, ?_, rfl, fun _ => rfl⟩
        · rw [hentries, List.flatMap_eq_nil_iff]
          exact fun s hs => ((all s hs).2 (heads s hs)).1
        · rw [hfaults, List.filterMap_eq_nil_iff]
          intro f hf
          obtain ⟨s, hs, rfl⟩ := List.mem_map.mp hf
          exact ((all s hs).2 (heads s hs)).2
      · cases h

/-- A step takes all postings of the least id. -/
theorem next_ok [FusedSource σ] {m m' : Merge σ} {d : Descriptor}
    (h : m.next = (some (.ok d), m')) (ordered : m.Ordered) :
    m'.Ordered ∧ collect m.entries = d :: collect m'.entries ∧ m'.faults = m.faults ∧
      m'.current = d ∧ m'.done = false := by
  rw [next_eq] at h
  split at h
  · cases h
  · rename_i hd
    split at h
    · cases h
    · rename_i ss hf
      split at h
      · cases h
      · rename_i id hl
        cases h
        obtain ⟨all, hentries, hfaults⟩ := fillAll_entries hf ordered hd
        have notBelow : ∀ s ∈ ss, ∀ d ∈ s.head, id ≤ d.id := by
          intro s hs d hd
          exact leastId_le hl d.id (List.mem_filterMap.mpr ⟨s, hs, by rw [hd]; rfl⟩)
        have least : ∀ e ∈ m.entries, id ≤ e.1 := by
          rw [hentries]
          intro e he
          obtain ⟨s, hs, he⟩ := List.mem_flatMap.mp he
          exact MergeSource.le_of_mem_entries (all s hs).1 (all s hs).2 (notBelow s hs) e he
        have mem : ∃ e ∈ m.entries, e.1 = id := by
          obtain ⟨s, hs, hid⟩ := List.mem_filterMap.mp (mem_of_leastId hl)
          obtain ⟨d, hhead, rfl⟩ := Option.map_eq_some_iff.mp hid
          obtain ⟨e, he, hid⟩ := MergeSource.mem_entries_of_head (all s hs).1 hhead
          exact ⟨e, hentries ▸ List.mem_flatMap.mpr ⟨s, hs, he⟩, hid⟩
        obtain ⟨taken, left⟩ := MergeSource.flatMap_entries_of_notBelow all notBelow
        refine ⟨?_, ?_, ?_, rfl, rfl⟩
        · intro s hs
          obtain ⟨t, ht, rfl⟩ := List.mem_map.mp hs
          exact MergeSource.ordered_dropHead (all t ht).1 id
        · rw [collect_of_least mem least, hentries, taken, left, entries, if_neg (by simp)]
        · rw [hfaults, faults, if_neg (by simp), List.map_map]
          refine congrArg _ (List.map_congr_left fun s _ => ?_)
          exact MergeSource.fault?_dropHead id s

end Merge
end TermStats
