import Mathlib.Algebra.Group.Int.Defs
import Mathlib.Algebra.GroupWithZero.Nat
import TermStats.Term.Cursor
import TermStats.Term.Share

/-!
What a term source still has to give, as a list of terms up to the first fault. A source that has
nothing more is asked again by those who read from it, so it must then stay at its end; cursors do.
Leaving out the terms of other splits leaves out the same terms of the list, and no fault.
-/

namespace TermStats

section Faults

variable {ε α β : Type}

/-- The values before the first fault. -/
def beforeFault : List (Except ε α) → List α
  | .ok a :: rest => a :: beforeFault rest
  | _ => []

def firstFault? : List (Except ε α) → Option ε
  | .ok _ :: rest => firstFault? rest
  | .error e :: _ => some e
  | [] => none

theorem beforeFault_append (l : List α) (xs : List (Except ε α)) :
    beforeFault (l.map .ok ++ xs) = l ++ beforeFault xs := by
  induction l with
  | nil => rfl
  | cons a rest ih => exact congrArg (a :: ·) ih

theorem beforeFault_map_ok (l : List α) : beforeFault (l.map .ok : List (Except ε α)) = l := by
  rw [← List.append_nil (l.map _), beforeFault_append]
  exact List.append_nil l

theorem map_beforeFault {xs : List (Except ε α)} (h : firstFault? xs = none) :
    (beforeFault xs).map .ok = xs := by
  induction xs with
  | nil => rfl
  | cons x rest ih =>
      cases x with
      | error e => cases h
      | ok a => exact congrArg (.ok a :: ·) (ih h)

theorem firstFault?_append (l : List α) (xs : List (Except ε α)) :
    firstFault? (l.map .ok ++ xs) = firstFault? xs := by
  induction l with
  | nil => rfl
  | cons a rest ih => exact ih

theorem firstFault?_eq_none {xs : List (Except ε α)} :
    firstFault? xs = none ↔ ∀ x ∈ xs, x.isOk := by
  induction xs with
  | nil => exact ⟨fun _ _ h => absurd h List.not_mem_nil, fun _ => rfl⟩
  | cons x rest ih =>
      cases x with
      | error e => simp [firstFault?, Except.isOk, Except.toBool]
      | ok a => simp [firstFault?, ih, Except.isOk, Except.toBool]

theorem mem_of_firstFault? {xs : List (Except ε α)} {e : ε}
    (h : firstFault? xs = some e) : .error e ∈ xs := by
  induction xs with
  | nil => cases h
  | cons x rest ih =>
      cases x with
      | error e' =>
          cases h
          exact List.mem_cons_self
      | ok a => exact List.mem_cons_of_mem _ (ih h)

theorem beforeFault_filter (keep : Except ε α → Bool) (faults : ∀ e, keep (.error e) = true)
    (xs : List (Except ε α)) :
    beforeFault (xs.filter keep) = (beforeFault xs).filter (keep <| .ok ·) := by
  induction xs with
  | nil => rfl
  | cons x rest ih =>
      cases x with
      | error e => simp [faults, beforeFault]
      | ok a => by_cases h : keep (.ok a) <;> simp [h, beforeFault, ih]

theorem firstFault?_filter (keep : Except ε α → Bool) (faults : ∀ e, keep (.error e) = true)
    (xs : List (Except ε α)) : firstFault? (xs.filter keep) = firstFault? xs := by
  induction xs with
  | nil => rfl
  | cons x rest ih =>
      cases x with
      | error e => simp [faults, firstFault?]
      | ok a => by_cases h : keep (.ok a) <;> simp [h, firstFault?, ih]

end Faults

/-- A source that has come to its end stays there. -/
class FusedSource (σ : Type) [TermSource σ] : Prop where
  next_of_end {s s' : σ} : TermSource.next s = (none, s') → (TermSource.next s').1 = none

namespace TermSource

variable {σ : Type} [TermSource σ]

theorem toList_of_none {s s' : σ} (h : next s = (none, s')) : toList s = [] := by
  rw [toList]
  split
  · rfl
  · rename_i hs
    rw [h] at hs
    cases hs

theorem toList_of_some {s s' : σ} {x : Except Error Term} (h : next s = (some x, s')) :
    toList s = x :: toList s' := by
  rw [toList]
  split
  · rename_i hs
    rw [h] at hs
    cases hs
  · rename_i hs
    rw [h] at hs
    cases hs
    rfl

theorem toList_of_end [FusedSource σ] {s s' : σ} (h : next s = (none, s')) : toList s' = [] := by
  have hs := FusedSource.next_of_end h
  cases hn : next s' with
  | mk x s'' =>
      rw [hn] at hs
      cases hs
      exact toList_of_none hn

theorem toList_congr {s s' : σ} (h : next s = next s') : toList s = toList s' := by
  cases hn : next s' with
  | mk x s'' =>
      cases x with
      | none => rw [toList_of_none (h.trans hn), toList_of_none hn]
      | some x => rw [toList_of_some (h.trans hn), toList_of_some hn]

theorem toList_list (xs : List (Except Error Term)) : toList xs = xs := by
  induction xs with
  | nil => exact toList_of_none rfl
  | cons x rest ih => rw [toList_of_some (show next (x :: rest) = (some x, rest) from rfl), ih]

end TermSource

instance : FusedSource (List (Except Error Term)) where
  next_of_end {s s'} h := by
    cases s with
    | nil =>
        cases h
        rfl
    | cons x rest => cases h

namespace SplitTerms

variable {σ : Type} [TermSource σ]

/-- Whether an item of the whole source is one of the split's. -/
def passes (s : SplitTerms σ) : Except Error Term → Bool
  | .ok t => s.keeps t.id
  | .error _ => true

theorem toList_eq_filter (s : SplitTerms σ) :
    TermSource.toList s = (TermSource.toList s.terms).filter s.passes := by
  obtain ⟨terms, share⟩ := s
  induction terms using TermSource.induction with
  | finished terms terms' hn =>
      rw [TermSource.toList_of_none hn,
        TermSource.toList_of_none (next_of_none (s := ⟨terms, share⟩) hn)]
      rfl
  | faulted terms terms' e hn ih =>
      rw [TermSource.toList_of_some hn,
        TermSource.toList_of_some (next_of_error (s := ⟨terms, share⟩) hn), ih]
      rfl
  | yielded terms terms' t hn ih =>
      have hs := next_of_ok (s := ⟨terms, share⟩) hn
      rw [TermSource.toList_of_some hn]
      by_cases hk : keeps ⟨terms, share⟩ t.id
      · rw [if_pos hk] at hs
        rw [TermSource.toList_of_some hs, ih,
          List.filter_cons_of_pos (show passes ⟨terms, share⟩ (.ok t) = true from hk)]
        rfl
      · rw [if_neg hk] at hs
        rw [TermSource.toList_congr hs, ih,
          List.filter_cons_of_neg (show ¬ passes ⟨terms, share⟩ (.ok t) = true from hk)]
        rfl

instance [FusedSource σ] : FusedSource (SplitTerms σ) where
  next_of_end {s s'} h := by
    change s.next = (none, s') at h
    change s'.next.1 = none
    obtain ⟨terms, share⟩ := s
    induction terms using TermSource.induction with
    | finished terms terms' hn =>
        rw [next_of_none (s := ⟨terms, share⟩) hn] at h
        cases h
        have hend := FusedSource.next_of_end hn
        rcases ht : TermSource.next terms' with ⟨y, terms''⟩
        rw [ht] at hend
        cases hend
        rw [next_of_none (s := ⟨terms', share⟩) ht]
    | faulted terms terms' e hn _ =>
        rw [next_of_error (s := ⟨terms, share⟩) hn] at h
        cases h
    | yielded terms terms' t hn ih =>
        rw [next_of_ok (s := ⟨terms, share⟩) hn] at h
        split at h
        · cases h
        · exact ih h

/-- The split's terms that come before a fault. -/
def remaining (s : SplitTerms σ) : List Term :=
  (beforeFault (TermSource.toList s.terms)).filter (s.keeps ·.id)

theorem beforeFault_toList (s : SplitTerms σ) :
    beforeFault (TermSource.toList s) = s.remaining := by
  rw [toList_eq_filter, beforeFault_filter _ fun _ => rfl]
  rfl

theorem firstFault?_toList (s : SplitTerms σ) :
    firstFault? (TermSource.toList s) = firstFault? (TermSource.toList s.terms) := by
  rw [toList_eq_filter, firstFault?_filter _ fun _ => rfl]

end SplitTerms

namespace Cursor

theorem next_of_exhausted {c : Cursor} (h : c.exhausted = true) : c.next = (Option.none, c) := by
  simp only [next]
  split
  · simp_all
  · rfl

theorem exhausted_of_none {c c' : Cursor} (h : c.next = (Option.none, c')) :
    c'.next = (Option.none, c') := by
  simp only [next] at h
  split at h
  · split at h
    · cases h
    · cases h
      exact next_of_exhausted rfl
    · split at h <;> cases h
  · cases h
    simp only [next]

instance : FusedSource Cursor where
  next_of_end h := congrArg Prod.fst (exhausted_of_none h)

end Cursor
end TermStats
