import Mathlib.Algebra.Group.Int.Defs
import Mathlib.Algebra.GroupWithZero.Nat
import TermStats.Term.Basic

/-!
The values of a list in ascending order, each once. A strictly ascending list is determined by its
members, so two ways of listing the same values agree. The order of ids is total, with every int id
below every byte id.
-/

namespace TermStats

section Listing

variable {α : Type} [LT α] [DecidableLT α] [DecidableEq α]

/-- Puts a value into its place in an ascending list, unless it is there already. -/
def insertDistinct (a : α) : List α → List α
  | [] => [a]
  | b :: rest =>
      if a < b then a :: b :: rest
      else if a = b then b :: rest
      else b :: insertDistinct a rest

/-- The values of a list in ascending order, each once. -/
def distinct : List α → List α
  | [] => []
  | a :: rest => insertDistinct a (distinct rest)

theorem mem_insertDistinct {a b : α} {l : List α} : b ∈ insertDistinct a l ↔ b = a ∨ b ∈ l := by
  induction l with
  | nil => simp [insertDistinct]
  | cons c rest ih =>
      simp only [insertDistinct]
      split
      · simp
      · split
        · rename_i hac
          simp [hac]
        · simp only [List.mem_cons, ih]
          exact or_left_comm

theorem mem_distinct {b : α} {l : List α} : b ∈ distinct l ↔ b ∈ l := by
  induction l with
  | nil => rfl
  | cons a rest ih => simp [distinct, mem_insertDistinct, ih]

end Listing

section Ascending

variable {α : Type} [LT α] [LE α] [Std.IsLinearOrder α] [Std.LawfulOrderLT α]

/-- Both lists start with their least member, and the members are the same. -/
theorem eq_of_ascending_of_mem_iff {l l' : List α} (h : l.Pairwise (· < ·))
    (h' : l'.Pairwise (· < ·)) (members : ∀ a, a ∈ l ↔ a ∈ l') : l = l' := by
  induction l generalizing l' with
  | nil =>
      cases l' with
      | nil => rfl
      | cons b _ => exact absurd ((members b).mpr List.mem_cons_self) List.not_mem_nil
  | cons a rest ih =>
      cases l' with
      | nil => exact absurd ((members a).mp List.mem_cons_self) List.not_mem_nil
      | cons b rest' =>
          obtain ⟨least, hrest⟩ := List.pairwise_cons.mp h
          obtain ⟨least', hrest'⟩ := List.pairwise_cons.mp h'
          have hab : a = b := by
            have ha := (members a).mp List.mem_cons_self
            have hb := (members b).mpr List.mem_cons_self
            grind
          subst hab
          refine congrArg _ (ih hrest hrest' fun c => ?_)
          have hc := members c
          grind

variable [DecidableLT α] [DecidableEq α]

theorem pairwise_insertDistinct {a : α} {l : List α} (h : l.Pairwise (· < ·)) :
    (insertDistinct a l).Pairwise (· < ·) := by
  induction l with
  | nil => exact List.pairwise_singleton _ _
  | cons b rest ih =>
      obtain ⟨least, hrest⟩ := List.pairwise_cons.mp h
      simp only [insertDistinct]
      split
      · rename_i hab
        refine List.pairwise_cons.mpr ⟨fun c hc => ?_, h⟩
        rcases List.mem_cons.mp hc with rfl | hc
        · exact hab
        · exact Std.lt_trans hab (least c hc)
      · split
        · exact h
        · refine List.pairwise_cons.mpr ⟨fun c hc => ?_, ih hrest⟩
          rcases mem_insertDistinct.mp hc with rfl | hc
          · grind
          · exact least c hc

theorem pairwise_distinct (l : List α) : (distinct l).Pairwise (· < ·) := by
  induction l with
  | nil => exact List.Pairwise.nil
  | cons a rest ih => exact pairwise_insertDistinct ih

theorem distinct_eq {l l' : List α} (h : l'.Pairwise (· < ·)) (members : ∀ a, a ∈ l' ↔ a ∈ l) :
    distinct l = l' :=
  eq_of_ascending_of_mem_iff (pairwise_distinct l) h fun a => mem_distinct.trans (members a).symm

/-- A least member comes first, before those that differ from it. -/
theorem distinct_of_least {a : α} {l : List α} (mem : a ∈ l) (least : ∀ b ∈ l, a ≤ b) :
    distinct l = a :: distinct (l.filter (· ≠ a)) := by
  refine distinct_eq (List.pairwise_cons.mpr ⟨fun b hb => ?_, pairwise_distinct _⟩) fun b => ?_
  · have hb := mem_distinct.mp hb
    grind
  · simp only [List.mem_cons, mem_distinct, List.mem_filter]
    grind

theorem filter_distinct (p : α → Bool) (l : List α) :
    (distinct l).filter p = distinct (l.filter p) := by
  refine (distinct_eq ((pairwise_distinct l).filter p) fun a => ?_).symm
  simp only [List.mem_filter, mem_distinct]

end Ascending

namespace TermId

instance : LE TermId := ⟨fun a b => ¬ b < a⟩

theorem le_iff_not_lt {a b : TermId} : a ≤ b ↔ ¬ b < a := Iff.rfl

theorem int_le_int {a b : Int64} : int a ≤ int b ↔ a ≤ b := by
  rw [le_iff_not_lt, int_lt_int, Std.not_lt]

theorem bytes_le_bytes {a b : Bytes} : bytes a ≤ bytes b ↔ a ≤ b := by
  rw [le_iff_not_lt, bytes_lt_bytes, Std.not_lt]

theorem int_le_bytes (a : Int64) (b : Bytes) : int a ≤ bytes b := not_bytes_lt_int b a

theorem not_bytes_le_int (a : Bytes) (b : Int64) : ¬ bytes a ≤ int b :=
  fun h => h (int_lt_bytes b a)

instance : Std.IsLinearOrder TermId where
  le_refl a := by
    cases a with
    | int a => exact int_le_int.mpr (Std.le_refl a)
    | bytes a => exact bytes_le_bytes.mpr (Std.le_refl a)
  le_trans a b c := by
    intro hab hbc
    cases a <;> cases b <;> cases c <;>
      simp only [int_le_int, bytes_le_bytes, int_le_bytes, not_bytes_le_int] at hab hbc ⊢
    · exact Std.le_trans hab hbc
    · exact Std.le_trans hab hbc
  le_antisymm a b := by
    intro hab hba
    cases a <;> cases b <;>
      simp only [int_le_int, bytes_le_bytes, not_bytes_le_int] at hab hba
    · exact congrArg int (Std.le_antisymm hab hba)
    · exact congrArg bytes (Std.le_antisymm hab hba)
  le_total a b := by
    cases a <;> cases b <;>
      simp only [int_le_int, bytes_le_bytes, int_le_bytes, not_bytes_le_int, or_true, true_or]
    · exact Std.le_total
    · exact Std.le_total

instance : Std.LawfulOrderLT TermId where
  lt_iff a b := by
    rw [le_iff_not_lt, le_iff_not_lt, Classical.not_not]
    refine ⟨fun h => ⟨fun h' => ?_, h⟩, And.right⟩
    cases a <;> cases b
    · exact Std.not_gt_of_lt (int_lt_int.mp h) (int_lt_int.mp h')
    · exact h'
    · exact h
    · exact Std.not_gt_of_lt (bytes_lt_bytes.mp h) (bytes_lt_bytes.mp h')

end TermId

end TermStats
