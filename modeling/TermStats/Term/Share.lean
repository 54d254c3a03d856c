import TermStats.Term.Grouping
import TermStats.Term.Partition

/-!
The part of a term source that falls into one split. Leaving terms out happens before
grouping, so a split's groups are groups of the whole.
-/

namespace TermStats

/-- One split out of a number of splits. -/
structure Share where
  partitioner : Partitioner
  split : Nat
  numSplits : Nat
  deriving Inhabited

def Share.keeps (s : Share) (id : TermId) : Bool :=
  s.partitioner.splitOf? id s.numSplits = some s.split

/-- The terms of `terms` in a share, or all of them. Faults pass through. -/
structure SplitTerms (σ : Type) where
  terms : σ
  share : Option Share
  deriving Inhabited

namespace SplitTerms

variable {σ : Type}

def all (terms : σ) : SplitTerms σ := ⟨terms, none⟩

def keeps (s : SplitTerms σ) (id : TermId) : Bool :=
  s.share.all (·.keeps id)

variable [TermSource σ]

def next (s : SplitTerms σ) : Option (Except Error Term) × SplitTerms σ :=
  match _h : TermSource.next s.terms with
  | (none, terms) => (none, { s with terms := terms })
  | (some (.error e), terms) => (some (.error e), { s with terms := terms })
  | (some (.ok t), terms) =>
      if s.keeps t.id then (some (.ok t), { s with terms := terms })
      else next { s with terms := terms }
termination_by TermSource.size s.terms
decreasing_by exact TermSource.size_of_some _h

theorem next_of_none {s : SplitTerms σ} {terms : σ} (h : TermSource.next s.terms = (none, terms)) :
    s.next = (none, { s with terms := terms }) := by
  rw [next]
  split <;> simp_all

theorem next_of_error {s : SplitTerms σ} {terms : σ} {e : Error}
    (h : TermSource.next s.terms = (some (.error e), terms)) :
    s.next = (some (.error e), { s with terms := terms }) := by
  rw [next]
  split <;> simp_all

theorem next_of_ok {s : SplitTerms σ} {terms : σ} {t : Term}
    (h : TermSource.next s.terms = (some (.ok t), terms)) :
    s.next = if s.keeps t.id then (some (.ok t), { s with terms := terms })
      else next { s with terms := terms } := by
  rw [next]
  split <;> simp_all

theorem size_of_next {s s' : SplitTerms σ} {x : Option (Except Error Term)}
    (h : s.next = (x, s')) :
    TermSource.size s'.terms + x.toList.length ≤ TermSource.size s.terms := by
  obtain ⟨terms, share⟩ := s
  induction terms using TermSource.induction with
  | finished terms terms' hn =>
      rw [next_of_none (s := ⟨terms, share⟩) hn] at h
      cases h
      exact TermSource.size_of_none hn
  | faulted terms terms' e hn _ =>
      rw [next_of_error (s := ⟨terms, share⟩) hn] at h
      cases h
      exact TermSource.size_of_some hn
  | yielded terms terms' t hn ih =>
      have lt := TermSource.size_of_some hn
      rw [next_of_ok (s := ⟨terms, share⟩) hn] at h
      split at h
      · cases h
        exact lt
      · exact Nat.le_of_lt (Nat.lt_of_le_of_lt (ih h) lt)

instance : TermSource (SplitTerms σ) where
  next := next
  size s := TermSource.size s.terms
  size_of_some h := size_of_next h
  size_of_none h := size_of_next h

end SplitTerms
end TermStats
