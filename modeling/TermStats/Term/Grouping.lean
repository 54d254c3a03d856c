import TermStats.Term.Descriptor

/-!
Sources of terms, and the grouping of a source's consecutive terms of one id into
descriptors. A source may fail; its first fault is passed on and ends the grouping.
-/

namespace TermStats

/-- A finite source of terms. Every item it yields makes it smaller. -/
class TermSource (σ : Type) where
  next : σ → Option (Except Error Term) × σ
  size : σ → Nat
  size_of_some {s s' : σ} {x : Except Error Term} : next s = (some x, s') → size s' < size s
  size_of_none {s s' : σ} : next s = (none, s') → size s' ≤ size s

instance : TermSource (List (Except Error Term)) where
  next
    | [] => (none, [])
    | x :: rest => (some x, rest)
  size := List.length
  size_of_some {s _ _} h := by
    cases s with
    | nil => simp at h
    | cons y rest => cases h; exact Nat.lt_succ_self _
  size_of_none {s _} h := by
    cases s with
    | nil => cases h; exact Nat.le_refl _
    | cons y rest => simp at h

namespace TermSource

/-- What a source has whenever the source after its next item has it, or it has no next item. -/
@[elab_as_elim]
theorem induction {σ : Type} [TermSource σ] {motive : σ → Prop}
    (finished : ∀ s s', next s = (none, s') → motive s)
    (faulted : ∀ s s' e, next s = (some (.error e), s') → motive s' → motive s)
    (yielded : ∀ s s' t, next s = (some (.ok t), s') → motive s' → motive s) (s : σ) :
    motive s := by
  induction hs : size s using Nat.strongRecOn generalizing s with
  | ind n ih =>
      subst hs
      rcases hn : next s with ⟨_ | (e | t), s'⟩
      · exact finished s s' hn
      · exact faulted s s' e hn (ih _ (size_of_some hn) s' rfl)
      · exact yielded s s' t hn (ih _ (size_of_some hn) s' rfl)

/-- Everything the source yields before it first has nothing more. -/
def toList {σ : Type} [TermSource σ] (s : σ) : List (Except Error Term) :=
  match _h : next s with
  | (none, _) => []
  | (some x, s') => x :: toList s'
termination_by size s
decreasing_by exact size_of_some _h

end TermSource

/-- A grouping of the terms of `inner`, all tagged with one source index. `lookahead` is a term that
has been taken from `inner` and starts the next group. -/
structure Grouping (σ : Type) where
  inner : σ
  source : UInt32
  lookahead : Option Term
  done : Bool
  deriving Repr, Inhabited

namespace Grouping

variable {σ : Type} [TermSource σ]

def ofSource (inner : σ) (source : UInt32) : Grouping σ :=
  ⟨inner, source, none, false⟩

/-- Adds the postings of the terms of the descriptor's id that come next. Returns it, the source
after them, and the term of another id that ended the group, if one did. -/
def takeGroup (source : UInt32) (d : Descriptor) (s : σ) :
    Except Error (Descriptor × Option Term) × σ :=
  match _h : TermSource.next s with
  | (none, s') => (.ok (d, none), s')
  | (some (.error e), s') => (.error e, s')
  | (some (.ok t), s') =>
      if t.id = d.id then
        match d.push t source with
        | .error f => (.error f.toError, s')
        | .ok d => takeGroup source d s'
      else (.ok (d, some t), s')
termination_by TermSource.size s
decreasing_by exact TermSource.size_of_some _h

section TakeGroup

variable {s s' : σ}

theorem takeGroup_of_none (source : UInt32) (d : Descriptor)
    (h : TermSource.next s = (none, s')) : takeGroup source d s = (.ok (d, none), s') := by
  rw [takeGroup]
  split <;> rename_i hn <;> rw [h] at hn <;> cases hn
  rfl

theorem takeGroup_of_error (source : UInt32) (d : Descriptor) {e : Error}
    (h : TermSource.next s = (some (.error e), s')) :
    takeGroup source d s = (.error e, s') := by
  rw [takeGroup]
  split <;> rename_i hn <;> rw [h] at hn <;> cases hn
  rfl

/-- A term is only pushed onto a descriptor of its id, so the push succeeds. -/
theorem takeGroup_of_some (source : UInt32) (d : Descriptor) {t : Term}
    (h : TermSource.next s = (some (.ok t), s')) :
    takeGroup source d s =
      if t.id = d.id then
        takeGroup source (.ofPostings d.id (d.postings ++ [.ofTerm t source])) s'
      else (.ok (d, some t), s') := by
  rw [takeGroup]
  split <;> rename_i hn <;> rw [h] at hn <;> cases hn
  split
  · rename_i same
    rw [Descriptor.push_eq same]
  · rfl

end TakeGroup

/-- The first term of the next group. -/
def pull (g : Grouping σ) : Option (Except Error Term) × Grouping σ :=
  match g.lookahead with
  | some t => (some (.ok t), { g with lookahead := none })
  | none =>
      let (x, inner) := TermSource.next g.inner
      (x, { g with inner := inner })

/-- The descriptor of the next maximal run of terms of one id. -/
def next (g : Grouping σ) : Option (Except Error Descriptor) × Grouping σ :=
  if g.done then (none, g)
  else
    match g.pull with
    | (none, g) => (none, { g with done := true })
    | (some (.error e), g) => (some (.error e), { g with done := true, lookahead := none })
    | (some (.ok t), g) =>
        match (Descriptor.ofId t.id).push t g.source with
        | .error f => (some (.error f.toError), { g with done := true, lookahead := none })
        | .ok d =>
            match takeGroup g.source d g.inner with
            | (.error e, inner) =>
                (some (.error e), { g with inner := inner, done := true, lookahead := none })
            | (.ok (d, after), inner) =>
                (some (.ok d), { g with inner := inner, lookahead := after })

/-- The first term makes the descriptor, whose other postings follow it. -/
theorem next_of_pull {g g' : Grouping σ} {t : Term} (hd : ¬ g.done = true)
    (h : g.pull = (some (.ok t), g')) :
    g.next =
      match takeGroup g'.source (.ofPostings t.id [.ofTerm t g'.source]) g'.inner with
      | (.error e, inner) =>
          (some (.error e), { g' with inner := inner, done := true, lookahead := none })
      | (.ok (d, after), inner) =>
          (some (.ok d), { g' with inner := inner, lookahead := after }) := by
  have pushed : (Descriptor.ofId t.id).push t g'.source =
      .ok (.ofPostings t.id [.ofTerm t g'.source]) := Descriptor.push_eq rfl _
  rw [next, if_neg hd, h]
  simp only [pushed]

/-- A bound on the terms not yet grouped. -/
def size (g : Grouping σ) : Nat :=
  TermSource.size g.inner + g.lookahead.toList.length

/-- Taking a group reads on in the source, and keeps at most one term. -/
theorem size_of_takeGroup {source : UInt32} {d : Descriptor} {s s' : σ}
    {x : Except Error (Descriptor × Option Term)} (h : takeGroup source d s = (x, s')) :
    TermSource.size s' ≤ TermSource.size s ∧ ∀ d' after, x = .ok (d', after) →
      TermSource.size s' + after.toList.length ≤ TermSource.size s := by
  induction s using TermSource.induction generalizing d with
  | finished s rest hn =>
      rw [takeGroup_of_none source d hn] at h
      cases h
      have le := TermSource.size_of_none hn
      exact ⟨le, fun _ _ hx => by cases hx; exact le⟩
  | faulted s rest e hn _ =>
      rw [takeGroup_of_error source d hn] at h
      cases h
      exact ⟨Nat.le_of_lt (TermSource.size_of_some hn), fun _ _ hx => by cases hx⟩
  | yielded s rest t hn ih =>
      have lt := TermSource.size_of_some hn
      rw [takeGroup_of_some source d hn] at h
      split at h
      · obtain ⟨le, kept⟩ := ih h
        exact ⟨Nat.le_of_lt (Nat.lt_of_le_of_lt le lt), fun d' after hx =>
          Nat.le_of_lt (Nat.lt_of_le_of_lt (kept d' after hx) lt)⟩
      · cases h
        exact ⟨Nat.le_of_lt lt, fun _ _ hx => by cases hx; exact lt⟩

theorem size_of_pull_some {g g' : Grouping σ} {x : Except Error Term}
    (h : g.pull = (some x, g')) : g'.size < g.size := by
  simp only [pull] at h
  split at h
  · rename_i hl
    cases h
    simp [size, hl]
  · rename_i hl
    cases hn : TermSource.next g.inner with
    | mk y inner =>
        simp only [hn] at h
        cases h
        have := TermSource.size_of_some hn
        simpa [size, hl] using this

theorem size_of_pull_none {g g' : Grouping σ} (h : g.pull = (none, g')) : g'.size ≤ g.size := by
  simp only [pull] at h
  split at h
  · simp at h
  · rename_i hl
    cases hn : TermSource.next g.inner with
    | mk y inner =>
        simp only [hn] at h
        cases h
        have := TermSource.size_of_none hn
        simpa [size, hl] using this

theorem size_of_next_ok {g g' : Grouping σ} {d : Descriptor} (h : g.next = (some (.ok d), g')) :
    g'.size < g.size := by
  by_cases hd : g.done = true
  · rw [next, if_pos hd] at h
    cases h
  · cases hp : g.pull with
    | mk x g₁ =>
        match x with
        | none =>
            rw [next, if_neg hd, hp] at h
            cases h
        | some (.error e) =>
            rw [next, if_neg hd, hp] at h
            cases h
        | some (.ok t) =>
            have lt := size_of_pull_some hp
            rw [next_of_pull hd hp] at h
            split at h
            · cases h
            · rename_i ht
              cases h
              have := (size_of_takeGroup ht).2 _ _ rfl
              simp only [size] at lt ⊢
              omega

theorem size_of_next {g g' : Grouping σ} {x : Option (Except Error Descriptor)}
    (h : g.next = (x, g')) : g'.size ≤ g.size := by
  by_cases hd : g.done = true
  · rw [next, if_pos hd] at h
    cases h
    exact Nat.le_refl _
  · cases hp : g.pull with
    | mk item g₁ =>
        match item with
        | none =>
            rw [next, if_neg hd, hp] at h
            cases h
            have := size_of_pull_none hp
            exact this
        | some (.error e) =>
            rw [next, if_neg hd, hp] at h
            cases h
            have := size_of_pull_some hp
            simp only [size, Option.toList_none, List.length_nil] at this ⊢
            omega
        | some (.ok t) =>
            have lt := size_of_pull_some hp
            rw [next_of_pull hd hp] at h
            split at h
            · rename_i ht
              cases h
              have := (size_of_takeGroup ht).1
              simp only [size, Option.toList_none, List.length_nil] at lt ⊢
              omega
            · rename_i ht
              cases h
              have := (size_of_takeGroup ht).2 _ _ rfl
              simp only [size] at lt ⊢
              omega

end Grouping
end TermStats
