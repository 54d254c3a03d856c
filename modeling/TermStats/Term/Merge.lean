import TermStats.Term.Cursor
import TermStats.Term.Share

/-!
The merge of the term sources of one field. Each step yields the descriptor of the
least id among the sources, with the postings of all sources that have the id, source
by source. The first fault of a source is yielded once and ends the merge.
-/

namespace TermStats

/-- A source of a merge, with the descriptor it would give next once that is known. -/
structure MergeSource (σ : Type) where
  groups : Grouping (SplitTerms σ)
  head : Option Descriptor
  exhausted : Bool
  deriving Inhabited

namespace MergeSource

variable {σ : Type} [TermSource σ]

/-- Finds the next descriptor of the source, unless it is known or there is none. -/
def fill (s : MergeSource σ) : Except Error Unit × MergeSource σ :=
  match s.head, s.exhausted with
  | none, false =>
      match s.groups.next with
      | (some (.ok d), groups) => (.ok (), { s with groups := groups, head := some d })
      | (some (.error e), groups) => (.error e, { s with groups := groups, exhausted := true })
      | (none, groups) => (.ok (), { s with groups := groups, exhausted := true })
  | _, _ => (.ok (), s)

/-- Fills the sources in order, up to the first that fails. -/
def fillAll : List (MergeSource σ) → Except Error Unit × List (MergeSource σ)
  | [] => (.ok (), [])
  | s :: rest =>
      match s.fill with
      | (.error e, s) => (.error e, s :: rest)
      | (.ok _, s) =>
          let (x, rest) := fillAll rest
          (x, s :: rest)

def hasHead (id : TermId) (s : MergeSource σ) : Bool :=
  s.head.any (·.id = id)

/-- Adds the postings of the heads of the descriptor's id, source by source. -/
def gather (d : Descriptor) : List (MergeSource σ) → Except DescriptorFault Descriptor
  | [] => .ok d
  | s :: rest =>
      match s.head with
      | none => gather d rest
      | some head =>
          if head.id = d.id then
            match d.append head with
            | .error f => .error f
            | .ok d => gather d rest
          else gather d rest

/-- The postings that the source has for `id`, when it stands there. -/
def postingsOf (id : TermId) (s : MergeSource σ) : List Posting :=
  match s.head with
  | some d => if d.id = id then d.postings else []
  | none => []

omit [TermSource σ] in
/-- Only heads of the descriptor's id are appended to it, so gathering succeeds. -/
theorem gather_eq (d : Descriptor) (ss : List (MergeSource σ)) :
    gather d ss = .ok (.ofPostings d.id (d.postings ++ ss.flatMap (postingsOf d.id))) := by
  induction ss generalizing d with
  | nil =>
      rw [gather, List.flatMap_nil, List.append_nil, Descriptor.ofPostings_postings]
  | cons s rest ih =>
      rw [gather, List.flatMap_cons, postingsOf]
      cases s.head with
      | none => exact ih d
      | some head =>
          by_cases same : head.id = d.id
          · simp only [if_pos same, Descriptor.append_eq same, ih, Descriptor.id_ofPostings,
              Descriptor.postings_ofPostings, List.append_assoc]
          · simp only [if_neg same, ih, List.nil_append]

def dropHead (id : TermId) (s : MergeSource σ) : MergeSource σ :=
  if s.hasHead id then { s with head := none } else s

def size (s : MergeSource σ) : Nat :=
  s.groups.size + s.head.toList.length

theorem size_of_fill {s s' : MergeSource σ} {x : Except Error Unit} (h : s.fill = (x, s')) :
    s'.size ≤ s.size := by
  simp only [fill] at h
  split at h
  · rename_i hh _
    split at h <;> rename_i hg <;> cases h
    · have := Grouping.size_of_next_ok hg
      simp only [size, hh, Option.toList, List.length_cons, List.length_nil]
      omega
    · have := Grouping.size_of_next hg
      simpa [size, hh] using this
    · have := Grouping.size_of_next hg
      simpa [size, hh] using this
  · cases h
    exact Nat.le_refl _

def totalSize : List (MergeSource σ) → Nat
  | [] => 0
  | s :: rest => s.size + totalSize rest

theorem totalSize_of_fillAll {ss ss' : List (MergeSource σ)} {x : Except Error Unit}
    (h : fillAll ss = (x, ss')) : totalSize ss' ≤ totalSize ss := by
  induction ss generalizing ss' x with
  | nil => cases h; exact Nat.le_refl _
  | cons s rest ih =>
      simp only [fillAll] at h
      split at h
      · rename_i hf
        cases h
        have := size_of_fill hf
        simp only [totalSize]
        omega
      · rename_i hf
        cases h
        have := size_of_fill hf
        have := ih (show fillAll rest = ((fillAll rest).1, (fillAll rest).2) from rfl)
        simp only [totalSize] at this ⊢
        omega

theorem size_dropHead (id : TermId) (s : MergeSource σ) : (s.dropHead id).size ≤ s.size := by
  simp only [dropHead]
  split
  · simp [size]
  · exact Nat.le_refl _

theorem size_dropHead_of_hasHead {id : TermId} {s : MergeSource σ} (h : s.hasHead id) :
    (s.dropHead id).size < s.size := by
  cases hh : s.head with
  | none => simp [hasHead, hh] at h
  | some d => simp [dropHead, h, size, hh]

theorem totalSize_dropHead (id : TermId) (ss : List (MergeSource σ)) :
    totalSize (ss.map (dropHead id)) ≤ totalSize ss := by
  induction ss with
  | nil => exact Nat.le_refl _
  | cons s rest ih =>
      have := size_dropHead id s
      simp only [List.map_cons, totalSize] at ih ⊢
      omega

theorem totalSize_dropHead_lt {id : TermId} {ss : List (MergeSource σ)}
    (h : ∃ s ∈ ss, s.hasHead id) : totalSize (ss.map (dropHead id)) < totalSize ss := by
  induction ss with
  | nil => obtain ⟨_, hs, _⟩ := h; cases hs
  | cons s rest ih =>
      obtain ⟨t, ht, hid⟩ := h
      have le := totalSize_dropHead id rest
      have le' := size_dropHead id s
      simp only [List.map_cons, totalSize] at ih le ⊢
      cases ht with
      | head =>
          have := size_dropHead_of_hasHead hid
          omega
      | tail _ ht =>
          have := ih ⟨t, ht, hid⟩
          omega

end MergeSource

/-- The least of some ids. -/
def leastId : List TermId → Option TermId
  | [] => none
  | id :: rest =>
      match leastId rest with
      | none => some id
      | some least => some (if least < id then least else id)

theorem mem_of_leastId {ids : List TermId} {id : TermId} (h : leastId ids = some id) :
    id ∈ ids := by
  induction ids generalizing id with
  | nil => cases h
  | cons a rest ih =>
      simp only [leastId] at h
      split at h
      · cases h
        exact List.mem_cons_self
      · rename_i least hl
        cases h
        split
        · exact List.mem_cons_of_mem _ (ih hl)
        · exact List.mem_cons_self

structure Merge (σ : Type) where
  sources : List (MergeSource σ)
  current : Descriptor
  done : Bool
  deriving Inhabited

namespace Merge

variable {σ : Type}

/-- A merge whose postings carry the index given with their source. -/
def ofSources (sources : List (UInt32 × SplitTerms σ)) : Merge σ :=
  ⟨sources.map fun (index, terms) => ⟨⟨terms, index, none, false⟩, none, false⟩, .empty,
    sources.isEmpty⟩

def finish (m : Merge σ) (sources : List (MergeSource σ)) : Merge σ :=
  { m with sources := sources.map ({ · with head := none }), current := .empty, done := true }

variable [TermSource σ]

def next (m : Merge σ) : Option (Except Error Descriptor) × Merge σ :=
  if m.done then (none, m)
  else
    match MergeSource.fillAll m.sources with
    | (.error e, sources) => (some (.error e), m.finish sources)
    | (.ok _, sources) =>
        match leastId (sources.filterMap fun s => s.head.map (·.id)) with
        | none => (none, m.finish sources)
        | some id =>
            match MergeSource.gather (.ofId id) sources with
            | .error f => (some (.error f.toError), m.finish sources)
            | .ok d => (some (.ok d), ⟨sources.map (MergeSource.dropHead id), d, false⟩)

/-- A step in terms of what the heads hold of the least id. -/
theorem next_eq (m : Merge σ) :
    m.next =
      if m.done then (none, m)
      else
        match MergeSource.fillAll m.sources with
        | (.error e, sources) => (some (.error e), m.finish sources)
        | (.ok _, sources) =>
            match leastId (sources.filterMap fun s => s.head.map (·.id)) with
            | none => (none, m.finish sources)
            | some id =>
                let d : Descriptor := .ofPostings id (sources.flatMap (·.postingsOf id))
                (some (.ok d), ⟨sources.map (MergeSource.dropHead id), d, false⟩) := by
  simp only [next, MergeSource.gather_eq]
  rfl

/-- A bound on the items still to come. -/
def size (m : Merge σ) : Nat :=
  if m.done then 0 else MergeSource.totalSize m.sources + 1

theorem size_of_next {m m' : Merge σ} {x : Except Error Descriptor}
    (h : m.next = (some x, m')) : m'.size < m.size := by
  rw [next_eq] at h
  split at h
  · cases h
  · rename_i hd
    split at h
    · cases h
      simp [size, finish, hd]
    · rename_i hf
      split at h
      · cases h
      · rename_i hl
        cases h
        obtain ⟨s, hs, he⟩ := List.mem_filterMap.1 (mem_of_leastId hl)
        obtain ⟨d, hh, rfl⟩ := Option.map_eq_some_iff.1 he
        have le := MergeSource.totalSize_of_fillAll hf
        have lt := MergeSource.totalSize_dropHead_lt
          ⟨s, hs, show s.hasHead d.id = true by simp [MergeSource.hasHead, hh]⟩
        simp only [size, hd, Bool.false_eq_true, if_false]
        omega

/-- Everything the merge still yields: descriptors, and at most one fault, at the end. -/
def items (m : Merge σ) : List (Except Error Descriptor) :=
  match _h : m.next with
  | (none, _) => []
  | (some x, m') => x :: m'.items
termination_by m.size
decreasing_by exact size_of_next _h

/-- Finished merges are all alike; others are the same when their sources' cursors are. -/
def same (a b : Merge Cursor) : Bool :=
  if a.done || b.done then a.done == b.done
  else a.sources.length == b.sources.length &&
    (a.sources.zip b.sources).all fun (s, t) => s.groups.inner.terms.same t.groups.inner.terms

end Merge
end TermStats
