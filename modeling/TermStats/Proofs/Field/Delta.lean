import Mathlib.Algebra.Group.Int.Defs
import Mathlib.Algebra.GroupWithZero.Nat
import TermStats.Field.Writer

/-!
Lists and byte strings against what came before them: when the values of a list ascend, and how much
of a byte string its predecessor already has.
-/

namespace TermStats

theorem ascending_iff {α : Type} [LT α] [DecidableLT α]
    (trans : ∀ {a b c : α}, a < b → b < c → a < c) {l : List α} :
    ascending l = true ↔ l.Pairwise (· < ·) := by
  induction l with
  | nil => exact ⟨fun _ => List.Pairwise.nil, fun _ => rfl⟩
  | cons a rest ih =>
      cases rest with
      | nil => exact ⟨fun _ => List.pairwise_singleton _ _, fun _ => rfl⟩
      | cons b rest =>
          simp only [ascending, Bool.and_eq_true, decide_eq_true_eq, ih]
          refine ⟨fun ⟨hab, hrest⟩ => List.pairwise_cons.mpr ⟨fun c hc => ?_, hrest⟩, ?_⟩
          · rcases List.mem_cons.mp hc with rfl | hc
            · exact hab
            · exact trans hab ((List.pairwise_cons.mp hrest).1 c hc)
          · intro h
            obtain ⟨least, hrest⟩ := List.pairwise_cons.mp h
            exact ⟨least b List.mem_cons_self, hrest⟩

theorem commonLength_le_left (a b : Bytes) : commonLength a b ≤ a.length := by
  fun_induction commonLength a b with
  | case1 rest b rest' ih => exact Nat.succ_le_succ ih
  | case2 => exact Nat.zero_le _
  | case3 => exact Nat.zero_le _

theorem commonLength_le_right (a b : Bytes) : commonLength a b ≤ b.length := by
  fun_induction commonLength a b with
  | case1 rest b rest' ih => exact Nat.succ_le_succ ih
  | case2 => exact Nat.zero_le _
  | case3 => exact Nat.zero_le _

theorem take_commonLength (a b : Bytes) :
    a.take (commonLength a b) = b.take (commonLength a b) := by
  fun_induction commonLength a b with
  | case1 rest b rest' ih => exact congrArg (b :: ·) ih
  | case2 => rfl
  | case3 => rfl

/-- No longer beginning is common to both. -/
theorem le_commonLength {a b : Bytes} {n : Nat} (left : n ≤ a.length) (right : n ≤ b.length)
    (same : a.take n = b.take n) : n ≤ commonLength a b := by
  induction n generalizing a b with
  | zero => exact Nat.zero_le _
  | succ n ih =>
      cases a with
      | nil => cases left
      | cons x a =>
          cases b with
          | nil => cases right
          | cons y b =>
              obtain ⟨rfl, later⟩ := List.cons_eq_cons.mp same
              rw [commonLength, if_pos rfl]
              exact Nat.succ_le_succ (ih (Nat.le_of_succ_le_succ left)
                (Nat.le_of_succ_le_succ right) later)

/-- What two byte strings share and the rest of the second make the second. -/
theorem take_append_drop_commonLength (a b : Bytes) :
    a.take (commonLength a b) ++ b.drop (commonLength a b) = b := by
  rw [take_commonLength, List.take_append_drop]

end TermStats
