import TermStats.Proofs.Term.CursorGrammar
import TermStats.Proofs.Term.Progress

/-!
What the equality of two cursors says. It compares where they were opened and where they stand, not
the terms and bytes that they hold. Of one cursor and its copies, two that are not at their ends
stand at the same place only after the same number of steps, so equal ones go on alike.
-/

namespace TermStats.Cursor

section Equivalence

variable {a b c : Cursor}

theorem same_of_exhausted (h : a.isExhausted = true) : a.same b = b.isExhausted := by
  simp only [same, h]
  cases b.isExhausted <;> rfl

theorem same_of_unfinished (h : a.isExhausted = false) : a.same b = true ↔
    b.isExhausted = false ∧ a.file.map (·.opening) = b.file.map (·.opening) ∧ a.pos = b.pos := by
  simp only [same, h]
  cases b.isExhausted <;> simp

theorem same_refl (c : Cursor) : c.same c = true := by
  cases h : c.isExhausted with
  | true => rwa [same_of_exhausted h]
  | false => exact (same_of_unfinished h).mpr ⟨h, rfl, rfl⟩

theorem same_trans (hab : a.same b = true) (hbc : b.same c = true) : a.same c = true := by
  cases ha : a.isExhausted with
  | true =>
      rw [same_of_exhausted ha] at hab ⊢
      rwa [same_of_exhausted hab] at hbc
  | false =>
      obtain ⟨hb, opening, pos⟩ := (same_of_unfinished ha).mp hab
      obtain ⟨hc, opening', pos'⟩ := (same_of_unfinished hb).mp hbc
      exact (same_of_unfinished ha).mpr ⟨hc, opening.trans opening', pos.trans pos'⟩

end Equivalence

section Steps

variable {c : Cursor} {steps m n : Nat}

theorem next_of_isExhausted (h : c.isExhausted = true) : c.next = (Option.none, c) := by
  rcases Bool.or_eq_true_iff.mp h with exhausted | unopened
  · exact next_of_exhausted exhausted
  · simp only [next]
    split
    · rename_i opened
      simp [opened] at unopened
    · rfl

/-- A step after which the cursor is not at its end has yielded a term. -/
theorem unfinished_of_next {c' : Cursor} {x : Option (Except Error Term)} (hn : c.next = (x, c'))
    (h : c'.isExhausted = false) : c.isExhausted = false ∧ ∃ t, x = some (.ok t) := by
  have unfinished : c.isExhausted = false := by
    by_contra finished
    rw [next_of_isExhausted (by simpa using finished)] at hn
    cases hn
    exact finished h
  refine ⟨unfinished, ?_⟩
  by_contra other
  rcases exhausted_of_not_ok hn fun t ht => other ⟨t, ht⟩ with ended | rfl
  · simp [isExhausted, ended] at h
  · have moved : c'.next.2.size < c'.size :=
      ProbingSource.size_next_lt (s := c') (size_pos_iff.mpr unfinished)
    rw [hn] at moved
    exact Nat.lt_irrefl _ moved

/-- How many items the first steps yield. -/
def yielded (c : Cursor) (steps : Nat) : Nat :=
  (List.range steps).countP fun i => (c.after i).next.1.isSome

theorem after_succ (c : Cursor) (steps : Nat) :
    c.after (steps + 1) = (c.after steps).next.2 :=
  after_add c steps 1

/-- Up to its end a cursor yields an item in every step. -/
theorem yielded_eq (h : (c.after steps).isExhausted = false) : c.yielded steps = steps := by
  induction steps with
  | zero => rfl
  | succ steps ih =>
      rw [after_succ] at h
      cases hn : (c.after steps).next with
      | mk x c' =>
          rw [hn] at h
          obtain ⟨unfinished, t, rfl⟩ := unfinished_of_next hn h
          rw [yielded, List.range_succ, List.countP_append, ← yielded, ih unfinished]
          simp [hn]

theorem advances_after (c : Cursor) (steps : Nat) : TermSource.Advances c (c.after steps) := by
  induction steps generalizing c with
  | zero => exact .refl
  | succ steps ih => exact .step (ih c.next.2)

/-- A cursor that is not at its end has something to read behind it in every later state. -/
theorem size_after_lt (h : c.isExhausted = false) (pos : 0 < steps) :
    (c.after steps).size < c.size := by
  obtain ⟨more, rfl⟩ := Nat.exists_eq_add_of_lt pos
  rw [Nat.zero_add, after]
  exact Nat.lt_of_le_of_lt (advances_after c.next.2 more).size_le
    (ProbingSource.size_next_lt (s := c) (size_pos_iff.mpr h))

theorem steps_eq_of_same (le : m ≤ n) (h : (c.after m).same (c.after n) = true)
    (unfinished : (c.after m).isExhausted = false) : m = n := by
  obtain ⟨steps, rfl⟩ := Nat.exists_eq_add_of_le le
  rw [after_add] at h
  -- The same place means that the further steps read nothing, but each of them reads something.
  have unmoved := size_of_same (advances_after (c.after m) steps) h
  rcases Nat.eq_zero_or_pos steps with rfl | pos
  · rfl
  · exact absurd unmoved (Nat.ne_of_lt (size_after_lt unfinished pos))

/-- Two states of one cursor are the same when they are one state, or both at the end. -/
theorem same_after_iff : (c.after m).same (c.after n) = true ↔
    m = n ∨ ((c.after m).isExhausted = true ∧ (c.after n).isExhausted = true) := by
  refine ⟨fun h => ?_, ?_⟩
  · cases hm : (c.after m).isExhausted with
    | true => exact .inr ⟨rfl, by rwa [same_of_exhausted hm] at h⟩
    | false =>
        have hn := ((same_of_unfinished hm).mp h).1
        rcases Nat.le_total m n with le | le
        · exact .inl (steps_eq_of_same le h hm)
        · rw [same_comm] at h
          exact .inl (steps_eq_of_same le h hn).symm
  · rintro (rfl | ⟨hm, hn⟩)
    · exact same_refl _
    · rwa [same_of_exhausted hm]

/-- Where two states of one cursor are the same, every further step yields the same from both and
leads to states that are the same again. -/
theorem same_goes_on (h : (c.after m).same (c.after n) = true) (k : Nat) :
    (c.after (m + k)).next.1 = (c.after (n + k)).next.1 ∧
      (c.after (m + k)).same (c.after (n + k)) = true := by
  rcases same_after_iff.mp h with rfl | ⟨hm, hn⟩
  · exact ⟨rfl, same_refl _⟩
  · have stays := after_of_next_eq_self (next_of_isExhausted hm) k
    have stays' := after_of_next_eq_self (next_of_isExhausted hn) k
    rw [after_add, after_add, stays, stays', next_of_isExhausted hm, next_of_isExhausted hn,
      same_of_exhausted hm]
    exact ⟨rfl, hn⟩

end Steps

/-- Equality of cursors is an equivalence, of which those at their ends are one class. It is kept by
steps: of any cursor and its copies, those that are equal yield the same items, terms and fault, and
stay equal; and before the end they are equal exactly when as many items have been yielded. -/
theorem same_is_congruence (c : Cursor) :
    (∀ m n, (c.after m).same (c.after n) = true →
      TermSource.toList (c.after m) = TermSource.toList (c.after n) ∧
        ∀ k, (c.after (m + k)).next.1 = (c.after (n + k)).next.1 ∧
          (c.after (m + k)).same (c.after (n + k)) = true) ∧
    (∀ m n, (c.after m).isExhausted = false → (c.after n).isExhausted = false →
      ((c.after m).same (c.after n) = true ↔ c.yielded m = c.yielded n)) ∧
    (∀ a : Cursor, a.same a = true) ∧
    (∀ a b : Cursor, a.same b = true → b.same a = true) ∧
    (∀ a b d : Cursor, a.same b = true → b.same d = true → a.same d = true) ∧
    none.isExhausted = true ∧
    ∀ a b : Cursor, a.isExhausted = true → (a.same b = true ↔ b.isExhausted = true) := by
  refine ⟨fun m n h => ⟨?_, same_goes_on h⟩, fun m n hm hn => ?_, same_refl,
    fun a b h => same_comm a b ▸ h, fun _ _ _ => same_trans, rfl,
    fun a b ha => by rw [same_of_exhausted ha]⟩
  · refine List.ext_getElem? fun k => ?_
    rw [← next_after, ← next_after, ← after_add, ← after_add]
    exact (same_goes_on h k).1
  · rw [same_after_iff, yielded_eq hm, yielded_eq hn, hm]
    simp

/-- A file of one term that is then cut off: the term and the fault are two items, and after them
all states are the same. -/
theorem same_is_congruence_cut : ∃ c : Cursor,
    c = .ofFile ⟨⟨0, 0⟩, "shard", "field", .int, [1, 0, 1, 0x80]⟩ ∧
    (c.after 0).same (c.after 1) = false ∧ (c.after 2).same (c.after 5) = true ∧
    TermSource.toList (c.after 2) = TermSource.toList (c.after 5) := by
  refine ⟨_, rfl, ?_, by decide +kernel, ?_⟩
  · have apart := (same_is_congruence
      (.ofFile ⟨⟨0, 0⟩, "shard", "field", .int, [1, 0, 1, 0x80]⟩)).2.1 0 1
      (by decide +kernel) (by decide +kernel)
    rw [Bool.eq_false_iff, ne_eq, apart]
    decide +kernel
  · exact ((same_is_congruence _).1 2 5 (by decide +kernel)).1

end TermStats.Cursor
