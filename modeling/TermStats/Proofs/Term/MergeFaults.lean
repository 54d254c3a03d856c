import TermStats.Proofs.Term.MergeResult

/-!
The merge of sources of which some may be faulty. Up to the first fault that it meets, it yields
what the merge of the sources' sound beginnings does; then it yields that fault once and is done.
No descriptor that comes out misses a posting of its id, wherever the faults stand.
-/

namespace TermStats

/-- A merge of lists of terms, each with the index that its postings carry: every id of the terms
once, in ascending order, with the postings of all its terms, list by list. -/
structure IsMergeOf (sources : List (UInt32 × List Term)) (ds : List Descriptor) : Prop where
  ascending : (ds.map (·.id)).Pairwise (· < ·)
  ids : ∀ id, id ∈ ds.map (·.id) ↔ ∃ s ∈ sources, ∃ t ∈ s.2, t.id = id
  postings : ∀ d ∈ ds, d.postings = sources.flatMap fun s =>
    (s.2.filter (·.id = d.id)).map (Posting.ofTerm · s.1)

namespace Merge

section Steps

variable {σ : Type} [TermSource σ] [FusedSource σ]

/-- All descriptors and no fault, or the first ones and a fault. -/
theorem items_eq_append {m : Merge σ} (ordered : m.Ordered) :
    ∃ (ds : List Descriptor) (fault? : Option Error),
      m.items = ds.map .ok ++ fault?.toList.map .error ∧ ds <+: collect m.entries ∧
        (fault? = none → ds = collect m.entries) ∧ (fault?.isSome ↔ m.faults ≠ []) ∧
        ∀ e ∈ fault?, e ∈ m.faults := by
  by_cases sound : m.faults = []
  · refine ⟨collect m.entries, none, ?_, List.prefix_rfl, fun _ => rfl, by simp [sound], nofun⟩
    exact (items_eq ordered sound).trans (List.append_nil _).symm
  · obtain ⟨ds, e, hitems, hprefix, mem⟩ := items_of_faults ordered sound
    refine ⟨ds, some e, hitems, hprefix, nofun, by simp [sound], fun _ he => ?_⟩
    cases he
    exact mem

end Steps

section Sources

variable {σ : Type} [TermSource σ]

theorem isMergeOf_collect (sources : List (UInt32 × SplitTerms σ)) :
    IsMergeOf (sources.map fun s => (s.1, s.2.remaining))
      (collect (ofSources sources).entries) := by
  have ids : (collect (ofSources sources).entries).map (·.id) =
      distinct ((ofSources sources).entries.map (·.1)) := by
    rw [collect, List.map_map]
    exact List.map_id _
  refine ⟨?_, fun id => ?_, fun d hd => ?_⟩
  · rw [ids]
    exact pairwise_distinct _
  · rw [ids, mem_distinct, entries_ofSources]
    simp only [List.mem_map, List.mem_flatMap]
    refine ⟨?_, ?_⟩
    · rintro ⟨_, ⟨s, hs, t, ht, rfl⟩, rfl⟩
      exact ⟨_, ⟨s, hs, rfl⟩, t, ht, rfl⟩
    · rintro ⟨_, ⟨s, hs, rfl⟩, t, ht, rfl⟩
      exact ⟨_, ⟨s, hs, t, ht, rfl⟩, rfl⟩
  · rw [List.flatMap_map]
    exact postings_of_mem hd

end Sources

theorem mem_faults_ofSources {σ : Type} [TermSource σ] {sources : List (UInt32 × SplitTerms σ)}
    {e : Error} (h : e ∈ (ofSources sources).faults) :
    ∃ s ∈ sources, .error e ∈ TermSource.toList s.2.terms := by
  rw [faults_ofSources] at h
  obtain ⟨f, hf, rfl⟩ := List.mem_filterMap.mp h
  obtain ⟨s, hs, hfault⟩ := List.mem_map.mp hf
  exact ⟨s, hs, mem_of_firstFault? hfault⟩

end Merge
end TermStats
