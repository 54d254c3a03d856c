import TermStats.Proofs.Term.MergeResult

/-!
A merge takes from its sources nothing but the items they yield. A map of sources that keeps their
steps leaves the merge as it is, and replacing a source by the list of its items is such a map; so
sources may be exchanged for others that yield the same items.
-/

namespace TermStats

variable {σ τ : Type}

/-- A source and its image yield the same, step by step. -/
def TermSource.KeepsSteps [TermSource σ] [TermSource τ] (φ : σ → τ) : Prop :=
  ∀ s, next (φ s) = ((next s).1, φ (next s).2)

open TermSource (KeepsSteps)

namespace Grouping

def map (φ : σ → τ) (g : Grouping σ) : Grouping τ :=
  ⟨φ g.inner, g.source, g.lookahead, g.done⟩

variable [TermSource σ] [TermSource τ] {φ : σ → τ}

theorem takeGroup_map (keeps : KeepsSteps φ) (source : UInt32) (d : Descriptor) (s : σ) :
    takeGroup source d (φ s) = ((takeGroup source d s).1, φ (takeGroup source d s).2) := by
  induction s using TermSource.induction generalizing d with
  | finished s s' hn =>
      have step := keeps s
      rw [hn] at step
      rw [takeGroup_of_none source d step, takeGroup_of_none source d hn]
  | faulted s s' e hn _ =>
      have step := keeps s
      rw [hn] at step
      rw [takeGroup_of_error source d step, takeGroup_of_error source d hn]
  | yielded s s' t hn ih =>
      have step := keeps s
      rw [hn] at step
      rw [takeGroup_of_some source d step, takeGroup_of_some source d hn]
      split
      · exact ih _
      · rfl

theorem pull_map (keeps : KeepsSteps φ) (g : Grouping σ) :
    (g.map φ).pull = (g.pull.1, g.pull.2.map φ) := by
  simp only [pull, map]
  cases g.lookahead with
  | some t => rfl
  | none => rw [keeps g.inner]

theorem next_map (keeps : KeepsSteps φ) (g : Grouping σ) :
    (g.map φ).next = (g.next.1, g.next.2.map φ) := by
  have done : (g.map φ).done = g.done := rfl
  have pulled := pull_map keeps g
  by_cases hd : g.done = true
  · rw [next, next, done, if_pos hd, if_pos hd]
  · rcases hp : g.pull with ⟨_ | (e | t), g'⟩ <;> rw [hp] at pulled
    · rw [next, next, done, if_neg hd, if_neg hd, hp, pulled]
      rfl
    · rw [next, next, done, if_neg hd, if_neg hd, hp, pulled]
      rfl
    · rw [next_of_pull (done ▸ hd) pulled, next_of_pull hd hp]
      simp only [map, takeGroup_map keeps]
      cases takeGroup g'.source (.ofPostings t.id [.ofTerm t g'.source]) g'.inner with
      | mk taken inner => cases taken <;> rfl

end Grouping

namespace MergeSource

def map (φ : SplitTerms σ → SplitTerms τ) (s : MergeSource σ) : MergeSource τ :=
  ⟨s.groups.map φ, s.head, s.exhausted⟩

theorem dropHead_map (φ : SplitTerms σ → SplitTerms τ) (id : TermId) (s : MergeSource σ) :
    (s.map φ).dropHead id = (s.dropHead id).map φ := by
  have same : (s.map φ).hasHead id = s.hasHead id := rfl
  rw [dropHead, dropHead, same]
  split <;> rfl

variable [TermSource σ] [TermSource τ] {φ : SplitTerms σ → SplitTerms τ}

theorem fill_map (keeps : KeepsSteps φ) (s : MergeSource σ) :
    (s.map φ).fill = (s.fill.1, s.fill.2.map φ) := by
  obtain ⟨groups, head, exhausted⟩ := s
  cases head with
  | some d => rfl
  | none =>
      cases exhausted with
      | true => rfl
      | false =>
          simp only [fill, map, Grouping.next_map keeps]
          cases groups.next with
          | mk x groups =>
              cases x with
              | none => rfl
              | some x => cases x <;> rfl

theorem fillAll_map (keeps : KeepsSteps φ) (ss : List (MergeSource σ)) :
    fillAll (ss.map (map φ)) = ((fillAll ss).1, (fillAll ss).2.map (map φ)) := by
  induction ss with
  | nil => rfl
  | cons s rest ih =>
      rw [List.map_cons, fillAll, fillAll, fill_map keeps]
      cases s.fill with
      | mk x s' =>
          cases x with
          | error e => rfl
          | ok _ =>
              simp only [ih]
              rfl

end MergeSource

namespace Merge

def map (φ : SplitTerms σ → SplitTerms τ) (m : Merge σ) : Merge τ :=
  ⟨m.sources.map (·.map φ), m.current, m.done⟩

theorem finish_map (φ : SplitTerms σ → SplitTerms τ) (m : Merge σ) (ss : List (MergeSource σ)) :
    (m.map φ).finish (ss.map (·.map φ)) = (m.finish ss).map φ := by
  simp only [finish, map, List.map_map]
  rfl

variable [TermSource σ] [TermSource τ] {φ : SplitTerms σ → SplitTerms τ}

theorem next_map (keeps : KeepsSteps φ) (m : Merge σ) :
    (m.map φ).next = (m.next.1, m.next.2.map φ) := by
  have done : (m.map φ).done = m.done := rfl
  have filled : MergeSource.fillAll (m.map φ).sources =
      ((MergeSource.fillAll m.sources).1, (MergeSource.fillAll m.sources).2.map (·.map φ)) :=
    MergeSource.fillAll_map keeps m.sources
  rw [next_eq, next_eq, done, filled]
  split
  · rfl
  · cases MergeSource.fillAll m.sources with
    | mk x ss =>
        cases x with
        | error e => simp only [finish_map]
        | ok _ =>
            have heads : (ss.map (·.map φ)).filterMap (fun s => s.head.map (·.id)) =
                ss.filterMap fun s => s.head.map (·.id) := List.filterMap_map
            simp only [heads, finish_map]
            cases leastId (ss.filterMap fun s => s.head.map (·.id)) with
            | none => rfl
            | some id =>
                have postings : (ss.map (·.map φ)).flatMap (·.postingsOf id) =
                    ss.flatMap (·.postingsOf id) := List.flatMap_map ..
                have dropped : (ss.map (·.map φ)).map (·.dropHead id) =
                    (ss.map (·.dropHead id)).map (·.map φ) := by
                  rw [List.map_map, List.map_map]
                  exact List.map_congr_left fun s _ => MergeSource.dropHead_map φ id s
                simp only [postings]
                exact congrArg (fun sources => (_, Merge.mk sources _ false)) dropped

end Merge

section Listed

variable [TermSource σ] [TermSource τ] [FusedSource σ] [FusedSource τ]

/-- The items of the source as a list. The terms of other splits are left out already. -/
def SplitTerms.listed (s : SplitTerms σ) : SplitTerms (List (Except Error Term)) :=
  .all (TermSource.toList s)

end Listed

end TermStats
