import Mathlib.Data.List.Forall2
import TermStats.Proofs.Term.CursorOrder
import TermStats.Term.Merge

/-!
How far the sources of a merge have been read. A step only reads on, and a descriptor is not found
without reading: a source learns that it has nothing more only when it is asked for more.
-/

namespace TermStats

namespace TermSource

variable {σ : Type} [TermSource σ] {s s' s'' : σ}

/-- A source before and after some of its items have been taken. -/
inductive Advances : σ → σ → Prop where
  | refl {s : σ} : Advances s s
  | step {s s' : σ} : Advances (next s).2 s' → Advances s s'

theorem Advances.trans (h : Advances s s') (h' : Advances s' s'') : Advances s s'' := by
  induction h with
  | refl => exact h'
  | step _ ih => exact .step (ih h')

theorem size_next_le (s : σ) : size (next s).2 ≤ size s := by
  cases h : next s with
  | mk x s' =>
      cases x with
      | none => exact size_of_none h
      | some x => exact Nat.le_of_lt (size_of_some h)

theorem Advances.size_le (h : Advances s s') : size s' ≤ size s := by
  induction h with
  | refl => exact Nat.le_refl _
  | step _ ih => exact Nat.le_trans ih (size_next_le _)

end TermSource

open TermSource

/-- A source that learns that it is at its end only when it is asked for more. -/
class ProbingSource (σ : Type) [TermSource σ] : Prop where
  size_next_lt {s : σ} : 0 < size s → size (next s).2 < size s
  size_pos_of_ok {s s' : σ} {t : Term} : next s = (some (.ok t), s') → 0 < size s'

namespace Cursor

theorem size_pos_iff {c : Cursor} : 0 < c.size ↔ c.isExhausted = false := by
  obtain ⟨file, pos, bytes, current, started, exhausted⟩ := c
  cases exhausted <;> cases file <;> simp [size, isExhausted]

theorem advances_file {c c' : Cursor} (h : Advances c c') : c'.file = c.file := by
  induction h with
  | refl => rfl
  | step _ ih => exact ih.trans (file_next _)

/-- Cursors that are the same have as much to read. -/
theorem size_of_same {c c' : Cursor} (reads : Advances c c') (h : c.same c' = true) :
    c'.size = c.size := by
  have file := advances_file reads
  simp only [same] at h
  split at h
  · rename_i hc hc'
    have none : ¬ 0 < c.size := by simp [size_pos_iff, hc]
    have none' : ¬ 0 < c'.size := by simp [size_pos_iff, hc']
    omega
  · rename_i hc hc'
    simp only [Bool.and_eq_true, decide_eq_true_eq] at h
    simp only [isExhausted, Bool.or_eq_false_iff] at hc hc'
    simp only [size, hc.1, hc'.1, file, h.2]
  · cases h

theorem same_comm (c c' : Cursor) : c.same c' = c'.same c := by
  simp only [same]
  cases c.isExhausted <;> cases c'.isExhausted <;> simp [eq_comm]

instance : ProbingSource Cursor where
  size_next_lt {c} h := by
    change c.next.2.size < c.size
    have unfinished := size_pos_iff.mp h
    simp only [isExhausted, Bool.or_eq_false_iff, Option.isNone_eq_false_iff] at unfinished
    cases hn : c.next with
    | mk x c' =>
        cases x with
        | some x => exact size_of_some hn
        | none =>
            simp only [next] at hn
            split at hn
            · split at hn
              · cases hn
              · cases hn
                exact h
              · split at hn <;> cases hn
            · rename_i finished
              obtain ⟨file, hfile⟩ := Option.isSome_iff_exists.mp unfinished.2
              exact absurd hfile (finished file unfinished.1)
  size_pos_of_ok {c c' t} h := by
    change c.next = _ at h
    change 0 < c'.size
    simp only [next] at h
    split at h
    · rename_i hex hfile
      split at h
      · cases h
      · cases h
      · split at h
        · cases h
        · cases h
          simp [size_pos_iff, isExhausted, hex, hfile]
    · cases h

end Cursor

namespace SplitTerms

variable {σ : Type} [TermSource σ]

/-- A step takes one item of the whole source at least. -/
theorem advances_next (s : SplitTerms σ) : Advances (TermSource.next s.terms).2 s.next.2.terms := by
  obtain ⟨terms, share⟩ := s
  induction terms using TermSource.induction with
  | finished terms terms' hn =>
      rw [next_of_none (s := ⟨terms, share⟩) hn, hn]
      exact .refl
  | faulted terms terms' e hn _ =>
      rw [next_of_error (s := ⟨terms, share⟩) hn, hn]
      exact .refl
  | yielded terms terms' t hn ih =>
      rw [next_of_ok (s := ⟨terms, share⟩) hn, hn]
      split
      · exact .refl
      · exact .step ih

theorem advances_terms {s s' : SplitTerms σ} (h : Advances s s') : Advances s.terms s'.terms := by
  induction h with
  | refl => exact .refl
  | step _ ih => exact .trans (.step (advances_next _)) ih

instance [ProbingSource σ] : ProbingSource (SplitTerms σ) where
  size_next_lt {s} h :=
    Nat.lt_of_le_of_lt (advances_next s).size_le (ProbingSource.size_next_lt (s := s.terms) h)
  size_pos_of_ok {s s' t} h := by
    change s.next = _ at h
    change 0 < TermSource.size s'.terms
    obtain ⟨terms, share⟩ := s
    induction terms using TermSource.induction with
    | finished terms terms' hn =>
        rw [next_of_none (s := ⟨terms, share⟩) hn] at h
        cases h
    | faulted terms terms' e hn _ =>
        rw [next_of_error (s := ⟨terms, share⟩) hn] at h
        cases h
    | yielded terms terms' u hn ih =>
        rw [next_of_ok (s := ⟨terms, share⟩) hn] at h
        split at h
        · cases h
          exact ProbingSource.size_pos_of_ok hn
        · exact ih h

end SplitTerms

namespace Grouping

variable {σ : Type} [TermSource σ] {g g' : Grouping σ} {source : UInt32} {d : Descriptor}

theorem advances_takeGroup (source : UInt32) (d : Descriptor) (s : σ) :
    Advances (TermSource.next s).2 (takeGroup source d s).2 := by
  induction s using TermSource.induction generalizing d with
  | finished s rest hn =>
      rw [takeGroup_of_none source d hn, hn]
      exact .refl
  | faulted s rest e hn _ =>
      rw [takeGroup_of_error source d hn, hn]
      exact .refl
  | yielded s rest t hn ih =>
      rw [takeGroup_of_some source d hn, hn]
      split
      · exact .step (ih _)
      · exact .refl

/-- The source of a grouping that has taken a term too many can still be asked for more. -/
def Poised (g : Grouping σ) : Prop :=
  ∀ t ∈ g.lookahead, 0 < TermSource.size g.inner

theorem advances_next (g : Grouping σ) : Advances g.inner g.next.2.inner := by
  by_cases hd : g.done = true
  · rw [next, if_pos hd]
    exact .refl
  · have pulled : Advances g.inner g.pull.2.inner := by
      simp only [pull]
      split
      · exact .refl
      · exact .step .refl
    rcases hp : g.pull with ⟨_ | (e | t), g₁⟩ <;> rw [hp] at pulled
    · rw [next, if_neg hd, hp]
      exact pulled
    · rw [next, if_neg hd, hp]
      exact pulled
    · rw [next_of_pull hd hp]
      have taken := pulled.trans
        (.step (advances_takeGroup g₁.source (.ofPostings t.id [.ofTerm t g₁.source]) g₁.inner))
      split <;> rename_i ht <;> rwa [ht] at taken

variable [ProbingSource σ]

theorem size_pos_of_takeGroup {s s' : σ} {d' : Descriptor} {t : Term}
    (h : takeGroup source d s = (.ok (d', some t), s')) : 0 < TermSource.size s' := by
  induction s using TermSource.induction generalizing d with
  | finished s rest hn =>
      rw [takeGroup_of_none source d hn] at h
      cases h
  | faulted s rest e hn _ =>
      rw [takeGroup_of_error source d hn] at h
      cases h
  | yielded s rest u hn ih =>
      rw [takeGroup_of_some source d hn] at h
      split at h
      · exact ih h
      · cases h
        exact ProbingSource.size_pos_of_ok hn

omit [ProbingSource σ] in
theorem lookahead_of_pull_none (h : g.pull = (none, g')) : g'.lookahead = none := by
  simp only [pull] at h
  split at h
  · cases h
  · rename_i hl
    have hg : { g with inner := (TermSource.next g.inner).2 } = g' := congrArg Prod.snd h
    rwa [← hg]

theorem poised_next (poised : g.Poised) : g.next.2.Poised := by
  by_cases hd : g.done = true
  · rwa [next, if_pos hd]
  · rcases hp : g.pull with ⟨_ | (e | t), g₁⟩
    · rw [next, if_neg hd, hp]
      intro t ht
      rw [lookahead_of_pull_none hp] at ht
      cases ht
    · rw [next, if_neg hd, hp]
      intro t ht
      cases ht
    · rw [next_of_pull hd hp]
      split
      · intro u hu
        cases hu
      · rename_i ht
        intro u hu
        cases hu
        exact size_pos_of_takeGroup ht

/-- No descriptor is found without reading. -/
theorem size_next_lt (poised : g.Poised) (h : g.next = (some (.ok d), g')) :
    TermSource.size g'.inner < TermSource.size g.inner := by
  by_cases hd : g.done = true
  · rw [next, if_pos hd] at h
    cases h
  · rcases hp : g.pull with ⟨_ | (e | t), g₁⟩
    · rw [next, if_neg hd, hp] at h
      cases h
    · rw [next, if_neg hd, hp] at h
      cases h
    · have taken := advances_takeGroup g₁.source (.ofPostings t.id [.ofTerm t g₁.source]) g₁.inner
      rw [next_of_pull hd hp] at h
      split at h
      · cases h
      · rename_i ht
        cases h
        rw [ht] at taken
        simp only [pull] at hp
        split at hp
        · -- The lookahead starts the group, and the source is asked for what follows it.
          rename_i hl
          cases hp
          exact Nat.lt_of_le_of_lt taken.size_le (ProbingSource.size_next_lt (poised _ hl))
        · rcases hn : TermSource.next g.inner with ⟨x, inner⟩
          rw [hn] at hp
          cases hp
          exact Nat.lt_of_le_of_lt (Advances.size_le (.step taken)) (TermSource.size_of_some hn)

end Grouping

namespace MergeSource

variable {σ : Type} [TermSource σ]

/-- How much is left to read in some sources, beyond what they have looked up. -/
def unread (ss : List (MergeSource σ)) : Nat :=
  (ss.map fun s => TermSource.size s.groups.inner).sum

/-- The sources before and after some reading. -/
def AllAdvance : List (MergeSource σ) → List (MergeSource σ) → Prop :=
  List.Forall₂ fun s t => Advances s.groups.inner t.groups.inner

variable {ss ss' ss'' : List (MergeSource σ)}

theorem AllAdvance.refl (ss : List (MergeSource σ)) : AllAdvance ss ss :=
  List.forall₂_same.mpr fun _ _ => .refl

theorem AllAdvance.trans (h : AllAdvance ss ss') (h' : AllAdvance ss' ss'') :
    AllAdvance ss ss'' := by
  induction h generalizing ss'' with
  | nil => exact h'
  | cons reads _ ih =>
      cases h' with
      | cons reads' rest' => exact .cons (reads.trans reads') (ih rest')

theorem AllAdvance.unread_le (h : AllAdvance ss ss') : unread ss' ≤ unread ss := by
  induction h with
  | nil => exact Nat.le_refl _
  | cons reads _ ih => exact Nat.add_le_add reads.size_le ih

/-- What a lookup does to the sources that does not change what they hold. -/
theorem AllAdvance.map {f : MergeSource σ → MergeSource σ} (same : ∀ s, (f s).groups = s.groups)
    (ss : List (MergeSource σ)) : AllAdvance ss (ss.map f) := by
  rw [AllAdvance, List.forall₂_map_right_iff, List.forall₂_same]
  intro s _
  rw [same]
  exact .refl

theorem advances_fill (s : MergeSource σ) : Advances s.groups.inner s.fill.2.groups.inner := by
  have reads := s.groups.advances_next
  simp only [fill]
  split
  · split <;> rename_i hn <;> rwa [hn] at reads
  · exact .refl

theorem allAdvance_fillAll (ss : List (MergeSource σ)) : AllAdvance ss (fillAll ss).2 := by
  induction ss with
  | nil => exact .nil
  | cons s rest ih =>
      have reads := s.advances_fill
      simp only [fillAll]
      split
      · rename_i hf
        rw [hf] at reads
        exact .cons reads (AllAdvance.refl rest)
      · rename_i hf
        rw [hf] at reads
        exact .cons reads ih

variable [ProbingSource σ]

theorem poised_fill {s : MergeSource σ} (poised : s.groups.Poised) : s.fill.2.groups.Poised := by
  have next := Grouping.poised_next poised
  simp only [fill]
  split
  · split <;> rename_i hn <;> rwa [hn] at next
  · exact poised

/-- Filling a source does not give it a head unless it reads. -/
theorem head_fill {s : MergeSource σ} (poised : s.groups.Poised)
    (unmoved : TermSource.size s.fill.2.groups.inner = TermSource.size s.groups.inner) :
    s.fill.2.head = s.head := by
  simp only [fill] at unmoved ⊢
  split
  · rename_i hhead hex
    simp only [hhead, hex] at unmoved
    split
    · rename_i hn
      have lt := Grouping.size_next_lt poised hn
      rw [hn] at unmoved
      exact absurd unmoved (Nat.ne_of_lt lt)
    · rfl
    · rfl
  · rfl

theorem poised_fillAll (poised : ∀ s ∈ ss, s.groups.Poised) :
    ∀ s ∈ (fillAll ss).2, s.groups.Poised := by
  induction ss with
  | nil => exact nofun
  | cons s rest ih =>
      obtain ⟨here, others⟩ := List.forall_mem_cons.mp poised
      have filled := poised_fill here
      simp only [fillAll]
      split
      · rename_i hf
        rw [hf] at filled
        exact List.forall_mem_cons.mpr ⟨filled, others⟩
      · rename_i hf
        rw [hf] at filled
        exact List.forall_mem_cons.mpr ⟨filled, ih others⟩

/-- Where filling reads nothing, every head was there before. -/
theorem heads_fillAll (poised : ∀ s ∈ ss, s.groups.Poised) (h : fillAll ss = (.ok (), ss'))
    (unmoved : unread ss' = unread ss) : ss'.filterMap (·.head) = ss.filterMap (·.head) := by
  induction ss generalizing ss' with
  | nil =>
      cases h
      rfl
  | cons s rest ih =>
      obtain ⟨here, others⟩ := List.forall_mem_cons.mp poised
      have reads := s.advances_fill.size_le
      have head := head_fill here
      simp only [fillAll] at h
      split at h
      · cases h
      · rename_i s' hf
        have le := (allAdvance_fillAll rest).unread_le
        cases hr : fillAll rest with
        | mk x rest' =>
            rw [hr] at h le
            cases h
            rw [hf] at reads head
            simp only [unread, List.map_cons, List.sum_cons] at unmoved le reads
            have same := ih others hr (by simp only [unread]; omega)
            have sameHead : s'.head = s.head := head (by simp only; omega)
            simp only [List.filterMap_cons, sameHead, same]

end MergeSource
end TermStats
