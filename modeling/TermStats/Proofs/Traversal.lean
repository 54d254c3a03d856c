import Mathlib.Algebra.Group.Int.Defs
import Mathlib.Algebra.GroupWithZero.Nat
import TermStats.Result

/-!
Functions that may fail, mapped over lists: the whole list has values when each element has one, in
the same places. Also where the elements of equally long blocks stand in their concatenation.
-/

namespace TermStats

open Result

variable {α β ε : Type}

section Option

variable {g : α → Option β} {l l' : List α} {bs : List β}

theorem mapM_cons_eq_some {a : α} :
    (a :: l).mapM g = some bs ↔ ∃ b more, g a = some b ∧ l.mapM g = some more ∧ bs = b :: more := by
  simp only [List.mapM_cons, Option.bind_eq_bind, Option.bind_eq_some_iff, Option.pure_def,
    Option.some.injEq]
  refine ⟨?_, ?_⟩
  · rintro ⟨b, hb, more, hmore, rfl⟩
    exact ⟨b, more, hb, hmore, rfl⟩
  · rintro ⟨b, more, hb, hmore, rfl⟩
    exact ⟨b, hb, more, hmore, rfl⟩

theorem mapM_append_eq_some : (l ++ l').mapM g = some bs ↔
    ∃ first more, l.mapM g = some first ∧ l'.mapM g = some more ∧ bs = first ++ more := by
  simp only [List.mapM_append, Option.bind_eq_bind, Option.bind_eq_some_iff, Option.pure_def,
    Option.some.injEq]
  refine ⟨?_, ?_⟩
  · rintro ⟨first, hfirst, more, hmore, rfl⟩
    exact ⟨first, more, hfirst, hmore, rfl⟩
  · rintro ⟨first, more, hfirst, hmore, rfl⟩
    exact ⟨first, hfirst, more, hmore, rfl⟩

theorem mem_of_mapM (h : l.mapM g = some bs) {b : β} (hb : b ∈ bs) : ∃ a ∈ l, g a = some b := by
  induction l generalizing bs with
  | nil =>
      cases h
      cases hb
  | cons a rest ih =>
      obtain ⟨first, more, hfirst, hmore, rfl⟩ := mapM_cons_eq_some.mp h
      rcases List.mem_cons.mp hb with rfl | hb
      · exact ⟨a, List.mem_cons_self, hfirst⟩
      · obtain ⟨x, hx, hgx⟩ := ih hmore hb
        exact ⟨x, List.mem_cons_of_mem _ hx, hgx⟩

theorem mapM_isSome : (l.mapM g).isSome ↔ ∀ a ∈ l, (g a).isSome := by
  induction l with
  | nil => exact ⟨fun _ => nofun, fun _ => rfl⟩
  | cons a rest ih =>
      rw [List.mapM_cons, List.forall_mem_cons, ← ih]
      cases g a with
      | none => simp
      | some b => cases rest.mapM g <;> simp

end Option

section Except

variable {f : α → Except ε β} {l : List α} {bs : List β}

theorem mapM_cons_eq_ok {a : α} :
    (a :: l).mapM f = .ok bs ↔ ∃ b more, f a = .ok b ∧ l.mapM f = .ok more ∧ bs = b :: more := by
  simp only [List.mapM_cons, bind_eq_ok, pure_eq_ok]
  refine ⟨?_, ?_⟩
  · rintro ⟨b, hb, more, hmore, rfl⟩
    exact ⟨b, more, hb, hmore, rfl⟩
  · rintro ⟨b, more, hb, hmore, rfl⟩
    exact ⟨b, hb, more, hmore, rfl⟩

/-- Two functions that succeed alike do so on lists. -/
theorem mapM_eq_ok_iff {g : α → Option β} (h : ∀ a b, f a = .ok b ↔ g a = some b) :
    l.mapM f = .ok bs ↔ l.mapM g = some bs := by
  induction l generalizing bs with
  | nil => simp [pure, Except.pure]
  | cons a rest ih =>
      rw [mapM_cons_eq_ok, mapM_cons_eq_some]
      simp only [h, ih]

theorem getElem?_of_mapM (h : l.mapM f = .ok bs) : bs.length = l.length ∧
    ∀ (i : Nat) (a : α), l[i]? = some a → ∃ b, bs[i]? = some b ∧ f a = .ok b := by
  induction l generalizing bs with
  | nil =>
      cases h
      exact ⟨rfl, nofun⟩
  | cons x rest ih =>
      obtain ⟨y, ys, hy, hys, rfl⟩ := mapM_cons_eq_ok.mp h
      obtain ⟨hlen, hrest⟩ := ih hys
      refine ⟨congrArg (· + 1) hlen, ?_⟩
      intro i a hi
      cases i with
      | zero =>
          cases hi
          exact ⟨y, rfl, hy⟩
      | succ i => exact hrest i a hi

theorem mapM_ok_of_forall (h : ∀ a ∈ l, ∃ b, f a = .ok b) : ∃ bs, l.mapM f = .ok bs := by
  induction l with
  | nil => exact ⟨[], rfl⟩
  | cons a rest ih =>
      obtain ⟨⟨b, hb⟩, hrest⟩ := List.forall_mem_cons.mp h
      obtain ⟨bs, hbs⟩ := ih hrest
      exact ⟨b :: bs, mapM_cons_eq_ok.mpr ⟨b, bs, hb, hbs, rfl⟩⟩

theorem mapM_eq_error {e : ε} (h : l.mapM f = .error e) : ∃ a ∈ l, f a = .error e := by
  induction l with
  | nil => cases h
  | cons a rest ih =>
      rw [List.mapM_cons] at h
      cases ha : f a with
      | error e' =>
          rw [ha] at h
          cases h
          exact ⟨a, List.mem_cons_self, ha⟩
      | ok b =>
          rw [ha] at h
          cases hrest : rest.mapM f with
          | error e' =>
              rw [hrest] at h
              cases h
              obtain ⟨x, hx, hfx⟩ := ih hrest
              exact ⟨x, List.mem_cons_of_mem _ hx, hfx⟩
          | ok bs =>
              rw [hrest] at h
              cases h

theorem mapM_eq_ok_map {g : α → β} (h : ∀ a ∈ l, f a = .ok (g a)) : l.mapM f = .ok (l.map g) := by
  induction l with
  | nil => rfl
  | cons a rest ih =>
      obtain ⟨ha, hrest⟩ := List.forall_mem_cons.mp h
      exact mapM_cons_eq_ok.mpr ⟨g a, rest.map g, ha, ih hrest, List.map_cons⟩

end Except

section Blocks

variable (g : α → Nat → β)

theorem getElem?_blocks {l : List α} {width i j : Nat} {a : α} (hi : l[i]? = some a)
    (hj : j < width) :
    (l.flatMap fun a => (List.range width).map (g a))[i * width + j]? = some (g a j) := by
  induction l generalizing i with
  | nil => cases hi
  | cons b rest ih =>
      rw [List.flatMap_cons]
      cases i with
      | zero =>
          cases hi
          rw [Nat.zero_mul, Nat.zero_add, List.getElem?_append_left (by simpa using hj)]
          simp [hj]
      | succ i =>
          rw [List.getElem?_cons_succ] at hi
          have skip : (i + 1) * width + j = width + (i * width + j) := by
            rw [Nat.succ_mul]
            omega
          rw [skip, List.getElem?_append_right (by simp)]
          simpa using ih hi

theorem length_blocks (l : List α) (width : Nat) :
    (l.flatMap fun a => (List.range width).map (g a)).length = l.length * width := by
  simp [List.length_flatMap, List.map_const']

/-- Two places in a sequence of blocks are the same only in the same block. -/
theorem blocks_inj {width i j i' j' : Nat} (hj : j < width) (hj' : j' < width)
    (same : i * width + j = i' * width + j') : i = i' ∧ j = j' := by
  have pos : 0 < width := Nat.lt_of_le_of_lt (Nat.zero_le _) hj
  have blocks := congrArg (· / width) same
  have places := congrArg (· % width) same
  simp only [Nat.mul_comm _ width, Nat.mul_add_div pos, Nat.div_eq_of_lt hj, Nat.div_eq_of_lt hj',
    Nat.add_zero] at blocks
  simp only [Nat.mul_comm _ width, Nat.mul_add_mod, Nat.mod_eq_of_lt hj,
    Nat.mod_eq_of_lt hj'] at places
  exact ⟨blocks, places⟩

theorem block_end_le {width i count : Nat} (hi : i < count) :
    i * width + width ≤ count * width := by
  rw [← Nat.succ_mul]
  exact Nat.mul_le_mul_right _ hi

end Blocks

end TermStats
