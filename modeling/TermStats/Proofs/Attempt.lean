import TermStats.Fault
import TermStats.Result

/-!
Operations on a state in sequence. A loop ends as the readings that its steps go with: where one of
them has a fault it stops with it, and otherwise the state goes with all that was read.
-/

namespace TermStats.Attempt

variable {σ τ α β : Type}

theorem andThen_eq_ok {r : Attempt σ} {next : σ → Attempt σ} {s' : σ} :
    r.andThen next = (.ok (), s') ↔ ∃ s, r = (.ok (), s) ∧ next s = (.ok (), s') := by
  obtain ⟨x, s⟩ := r
  cases x with
  | ok _ => exact ⟨fun h => ⟨s, rfl, h⟩, fun ⟨_, hr, h⟩ => by cases hr; exact h⟩
  | error f => exact ⟨nofun, nofun⟩

theorem andThen_assoc (r : Attempt σ) (f g : σ → Attempt σ) :
    (r.andThen f).andThen g = r.andThen fun s => (f s).andThen g := by
  obtain ⟨x, s⟩ := r
  cases x <;> rfl

theorem andThen_self (r : Attempt σ) : (r.andThen fun s => (.ok (), s)) = r := by
  obtain ⟨x, s⟩ := r
  cases x <;> rfl

theorem each_append (step : σ → α → Attempt σ) (s : σ) (l l' : List α) :
    each step s (l ++ l') = (each step s l).andThen fun s => each step s l' := by
  induction l generalizing s with
  | nil => rfl
  | cons a rest ih =>
      rw [List.cons_append, each, each, andThen_assoc]
      exact congrArg _ (funext ih)

/-- The operation ends as the reading does: with its fault, or in a state that goes with the
value. -/
def Yields (P : σ → β → Prop) (r : Attempt σ) : Except Fault β → Prop
  | .ok b => ∃ s, r = (.ok (), s) ∧ P s b
  | .error f => r.1 = .error f

theorem Yields.mono {P Q : σ → β → Prop} {r : Attempt σ} {x : Except Fault β}
    (h : Yields P r x) (imp : ∀ s b, P s b → Q s b) : Yields Q r x := by
  cases x with
  | error f => exact h
  | ok b =>
      obtain ⟨s, hr, holds⟩ := h
      exact ⟨s, hr, imp s b holds⟩

section Each

variable {step : σ → α → Attempt σ} {read : α → Except Fault β} {P : σ → List β → Prop}

/-- Elements after the first few, of which the state goes with what was read so far. -/
theorem each_yields_from {l : List α}
    (h : ∀ s (bs : List β) a, l[bs.length]? = some a → P s bs →
      Yields (fun s b => P s (bs ++ [b])) (step s a) (read a))
    {rest : List α} {s : σ} {bs : List β} (suffix : ∀ i, rest[i]? = l[bs.length + i]?)
    (holds : P s bs) :
    Yields (fun s more => P s (bs ++ more)) (each step s rest) (rest.mapM read) := by
  induction rest generalizing s bs with
  | nil =>
      refine ⟨s, rfl, ?_⟩
      change P s (bs ++ [])
      rwa [List.append_nil]
  | cons a rest ih =>
      have first := h s bs a (suffix 0).symm holds
      rw [List.mapM_cons, each]
      cases ha : read a with
      | error f =>
          rw [ha] at first
          cases hs : step s a with
          | mk x s' =>
              rw [hs] at first
              cases first
              rfl
      | ok b =>
          rw [ha] at first
          obtain ⟨s', hs, holds'⟩ := first
          have next : ∀ i, rest[i]? = l[(bs ++ [b]).length + i]? := by
            intro i
            rw [List.length_append, Nat.add_assoc, Nat.add_comm [b].length i]
            exact suffix (i + 1)
          have others := ih next holds'
          rw [hs, andThen_ok]
          cases hrest : rest.mapM read with
          | error f =>
              rw [hrest] at others
              exact others
          | ok more =>
              rw [hrest] at others
              obtain ⟨t, ht, ended⟩ := others
              refine ⟨t, ht, ?_⟩
              rwa [List.append_assoc] at ended

/-- A loop whose every step ends as a reading ends as all of them do. -/
theorem each_yields {l : List α} {s : σ}
    (h : ∀ s (bs : List β) a, l[bs.length]? = some a → P s bs →
      Yields (fun s b => P s (bs ++ [b])) (step s a) (read a)) (holds : P s []) :
    Yields P (each step s l) (l.mapM read) :=
  each_yields_from h (fun i => by rw [List.length_nil, Nat.zero_add]) holds

end Each

/-- A loop on a state of which another loop sees a part: they end alike when their steps do, as long
as what the rest is to satisfy stays true. -/
theorem each_project {step : σ → α → Attempt σ} {step' : τ → α → Attempt τ} (view : σ → τ)
    {I : σ → Prop} (h : ∀ s a, I s → (step s a).map id view = step' (view s) a ∧
      ((step s a).1 = .ok () → I (step s a).2)) {s : σ} (holds : I s) (l : List α) :
    (each step s l).map id view = each step' (view s) l := by
  induction l generalizing s with
  | nil => rfl
  | cons a rest ih =>
      obtain ⟨same, kept⟩ := h s a holds
      rw [each, each, ← same]
      cases hs : step s a with
      | mk x s' =>
          rw [hs] at kept
          cases x with
          | error f => rfl
          | ok _ => exact ih (kept rfl)

end TermStats.Attempt
