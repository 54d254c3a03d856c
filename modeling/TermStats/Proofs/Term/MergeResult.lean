import TermStats.Proofs.Term.CursorOrder
import TermStats.Proofs.Term.MergeStep

/-!
What a whole merge yields. A merge of sound sources lists every id of their terms once, in ascending
order, with the postings of all its terms, and then stays at its end. Where a source has a fault,
the merge yields a part of this from the start, and then the fault of a source.
-/

namespace TermStats.Merge

section Steps

variable {σ : Type} [TermSource σ]

/-- The merge after some steps. -/
def after (m : Merge σ) : (steps : Nat) → Merge σ
  | 0 => m
  | steps + 1 => m.next.2.after steps

theorem next_done {m : Merge σ} (h : m.done = true) : m.next = (none, m) := by
  rw [next, if_pos h]

theorem after_done {m : Merge σ} (h : m.done = true) (steps : Nat) : m.after steps = m := by
  induction steps with
  | zero => rfl
  | succ steps ih => rw [after, next_done h, ih]

theorem items_of_none {m m' : Merge σ} (h : m.next = (none, m')) : m.items = [] := by
  rw [items]
  split
  · rfl
  · rename_i hn
    rw [h] at hn
    cases hn

theorem items_of_some {m m' : Merge σ} {x : Except Error Descriptor} (h : m.next = (some x, m')) :
    m.items = x :: m'.items := by
  rw [items]
  split
  · rename_i hn
    rw [h] at hn
    cases hn
  · rename_i hn
    rw [h] at hn
    cases hn
    rfl

variable [FusedSource σ]

/-- The steps go through the items and then no further. A fault is the last of them, so the merge
is done one step after the descriptors. -/
theorem next_after_items {m : Merge σ} (ordered : m.Ordered) (steps : Nat) :
    (m.after steps).next.1 = m.items[steps]? ∧
      ((beforeFault m.items).length < steps → (m.after steps).done = true ∧
        ((m.done = true → m.current = .empty) → (m.after steps).current = .empty)) := by
  induction steps generalizing m with
  | zero =>
      refine ⟨?_, fun h => absurd h (Nat.not_lt_zero _)⟩
      cases hn : m.next with
      | mk x m' =>
          cases x with
          | none => simp [after, hn, items_of_none hn]
          | some x => simp [after, hn, items_of_some hn]
  | succ steps ih =>
      cases hn : m.next with
      | mk x m' =>
          have goes : m.after (steps + 1) = m'.after steps := by rw [after, hn]
          rw [goes]
          match x with
          | none =>
              obtain ⟨_, _, hdone, hcurrent⟩ := next_none hn ordered
              rw [after_done hdone, next_done hdone, items_of_none hn]
              exact ⟨rfl, fun _ => ⟨hdone, hcurrent⟩⟩
          | some (.error e) =>
              obtain ⟨_, hdone, hcurrent⟩ := next_error hn
              rw [after_done hdone, next_done hdone, items_of_some hn,
                items_of_none (next_done hdone)]
              exact ⟨rfl, fun _ => ⟨hdone, fun _ => hcurrent⟩⟩
          | some (.ok d) =>
              obtain ⟨ordered', _, _, _, hdone⟩ := next_ok hn ordered
              obtain ⟨hnext, hend⟩ := ih ordered'
              rw [items_of_some hn, List.getElem?_cons_succ]
              refine ⟨hnext, fun hlt => ?_⟩
              obtain ⟨done, current⟩ := hend (Nat.lt_of_succ_lt_succ hlt)
              exact ⟨done, fun _ => current fun h => by rw [hdone] at h; cases h⟩

theorem items_eq {m : Merge σ} (ordered : m.Ordered) (sound : m.faults = []) :
    m.items = (collect m.entries).map .ok := by
  induction m using items.induct with
  | case1 m m' hn => rw [items_of_none hn, (next_none hn ordered).1, collect_nil, List.map_nil]
  | case2 m x m' hn ih =>
      cases x with
      | error e => exact absurd (next_error hn).1 (by simp [sound])
      | ok d =>
          obtain ⟨ordered', hentries, hfaults, _, _⟩ := next_ok hn ordered
          rw [items_of_some hn, hentries, List.map_cons, ih ordered' (hfaults.trans sound)]

/-- Without faults, the steps go through the descriptors of all postings and then no further. -/
theorem next_after {m : Merge σ} (ordered : m.Ordered) (sound : m.faults = []) (steps : Nat) :
    (m.after steps).next.1 = ((collect m.entries)[steps]?).map .ok ∧
      ((collect m.entries).length < steps → (m.after steps).done = true ∧
        ((m.done = true → m.current = .empty) → (m.after steps).current = .empty)) := by
  have steps := next_after_items ordered steps
  rw [items_eq ordered sound, beforeFault_map_ok, List.getElem?_map] at steps
  exact steps

/-- With a fault in some source, the merge ends with a fault, after descriptors that are complete
as far as they go. -/
theorem items_of_faults {m : Merge σ} (ordered : m.Ordered) (faulty : m.faults ≠ []) :
    ∃ ds e, m.items = ds.map .ok ++ [.error e] ∧ ds <+: collect m.entries ∧ e ∈ m.faults := by
  induction m using items.induct with
  | case1 m m' hn => exact absurd (next_none hn ordered).2.1 faulty
  | case2 m x m' hn ih =>
      cases x with
      | error e =>
          obtain ⟨mem, hdone, _⟩ := next_error hn
          refine ⟨[], e, ?_, List.nil_prefix, mem⟩
          rw [items_of_some hn, items_of_none (next_done hdone)]
          rfl
      | ok d =>
          obtain ⟨ordered', hentries, hfaults, _, _⟩ := next_ok hn ordered
          obtain ⟨ds, e, hitems, hpre, mem⟩ := ih ordered' (hfaults ▸ faulty)
          refine ⟨d :: ds, e, ?_, ?_, hfaults ▸ mem⟩
          · rw [items_of_some hn, hitems]
            rfl
          · rw [hentries]
            exact List.cons_prefix_cons.mpr ⟨rfl, hpre⟩

end Steps

section Sources

variable {σ : Type} [TermSource σ]

omit [TermSource σ] in
theorem not_done_ofSources (s : UInt32 × SplitTerms σ) (rest : List (UInt32 × SplitTerms σ)) :
    ¬ (ofSources (s :: rest)).done = true := Bool.false_ne_true

theorem entries_ofSources (sources : List (UInt32 × SplitTerms σ)) :
    (ofSources sources).entries =
      sources.flatMap fun s => s.2.remaining.map fun t => (t.id, Posting.ofTerm t s.1) := by
  cases sources with
  | nil => rfl
  | cons s rest =>
      rw [entries, if_neg (not_done_ofSources s rest), ofSources, List.flatMap_map,
        List.flatMap_def, List.flatMap_def]
      refine congrArg _ (List.map_congr_left fun s _ => ?_)
      change (beforeFault (TermSource.toList s.2)).map _ = _
      rw [SplitTerms.beforeFault_toList]

theorem postings_of_mem {sources : List (UInt32 × SplitTerms σ)} {d : Descriptor}
    (h : d ∈ collect (ofSources sources).entries) :
    d.postings = sources.flatMap fun s =>
      (s.2.remaining.filter (·.id = d.id)).map (Posting.ofTerm · s.1) := by
  obtain ⟨id, _, rfl⟩ := List.mem_map.mp h
  rw [Descriptor.postings_ofPostings, Descriptor.id_ofPostings, entries_ofSources,
    List.filter_flatMap, List.map_flatMap]
  refine congrArg (sources.flatMap ·) (funext fun s => ?_)
  rw [List.filter_map, List.map_map]
  rfl

theorem faults_ofSources (sources : List (UInt32 × SplitTerms σ)) :
    (ofSources sources).faults =
      (sources.map fun s => firstFault? (TermSource.toList s.2.terms)).filterMap id := by
  cases sources with
  | nil => rfl
  | cons s rest =>
      rw [faults, if_neg (not_done_ofSources s rest), ofSources, List.map_map]
      refine congrArg _ (List.map_congr_left fun s _ => ?_)
      exact SplitTerms.firstFault?_toList s.2

theorem faults_ofSources_eq_nil {sources : List (UInt32 × SplitTerms σ)} :
    (ofSources sources).faults = [] ↔
      ∀ s ∈ sources, firstFault? (TermSource.toList s.2.terms) = none := by
  rw [faults_ofSources, List.filterMap_eq_nil_iff]
  exact List.forall_mem_map

theorem ordered_of_ascending {sources : List (UInt32 × SplitTerms σ)}
    (ascends : ∀ s ∈ sources, s.2.remaining.Pairwise (·.id ≤ ·.id)) :
    (ofSources sources).Ordered := by
  intro s hs
  obtain ⟨source, hsource, rfl⟩ := List.mem_map.mp hs
  refine ⟨?_, nofun, nofun⟩
  change (beforeFault (TermSource.toList source.2)).Pairwise _
  rw [SplitTerms.beforeFault_toList]
  exact ascends source hsource

theorem ordered_ofSources {sources : List (UInt32 × SplitTerms Cursor)}
    (sound : ∀ s ∈ sources, s.2.terms.Sound) : (ofSources sources).Ordered :=
  ordered_of_ascending fun s hs => (Cursor.ascending_toList (sound s hs)).1.filter _

end Sources

end TermStats.Merge
