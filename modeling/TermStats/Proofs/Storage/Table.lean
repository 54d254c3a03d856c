import Mathlib.Algebra.Group.Int.Defs
import Mathlib.Algebra.GroupWithZero.Nat
import TermStats.Result
import TermStats.Storage.Table

/-!
Tables without panics. A table in memory has a cell for each row and column and a group for each
row, so no access in range panics, and its bits are those of its cells.
-/

namespace TermStats

namespace PackedTable

/-- No access in range panics. -/
def Total (t : PackedTable) : Prop :=
  ∀ row < t.rowCount, (∃ group, t.group row = .ok group) ∧
    ∀ col < t.colCount, (∃ v, t.cell row col = .ok v) ∧ ∃ b, t.bit row col = .ok b

/-- The bits are those of the cells that are not zero. -/
def BitsMarkCells (t : PackedTable) : Prop :=
  ∀ row < t.rowCount, ∀ col < t.colCount,
    t.bit row col = (t.cell row col).map fun v => decide (v ≠ 0)

end PackedTable

namespace MemoryTable

theorem length_fitRow (cols : Nat) (cells : List Int64) : (fitRow cols cells).length = cols := by
  simp only [fitRow, List.length_append, List.length_take, List.length_replicate]
  omega

/-- The arrays have a place for every cell and every group. -/
structure Filled (t : MemoryTable) : Prop where
  cells : t.rows * t.cols ≤ t.cells.size
  groups : t.rows ≤ t.groups.size

theorem filled_zeros (rows cols : Nat) : (zeros rows cols).Filled :=
  ⟨by simp [zeros], by simp [zeros]⟩

theorem size_cells_ofRows (cols : Nat) (rows : List (UInt32 × List Int64)) :
    (ofRows cols rows).cells.size = rows.length * cols := by
  simp [ofRows, List.length_flatMap, length_fitRow, List.map_const']

theorem filled_ofRows (cols : Nat) (rows : List (UInt32 × List Int64)) :
    (ofRows cols rows).Filled :=
  ⟨Nat.le_of_eq (size_cells_ofRows cols rows).symm, by simp [ofRows]⟩

theorem bitsMarkCells (t : MemoryTable) : t.packed.BitsMarkCells :=
  fun _ _ _ _ => rfl

theorem Filled.total {t : MemoryTable} (filled : t.Filled) : t.packed.Total := by
  intro row hrow
  refine ⟨?_, ?_⟩
  · have inGroups : row < t.groups.size := Nat.lt_of_lt_of_le hrow filled.groups
    refine ⟨t.groups.getD row 0, ?_⟩
    simp only [packed, group, if_pos inGroups, Result.mapError_ok]
  · intro col hcol
    have hrow : row < t.rows := hrow
    have hcol : col < t.cols := hcol
    have inCells : row * t.cols + col < t.cells.size := by
      have rowEnd : (row + 1) * t.cols ≤ t.rows * t.cols := Nat.mul_le_mul_right _ hrow
      have := filled.cells
      rw [Nat.succ_mul] at rowEnd
      omega
    have found : t.packed.cell row col = .ok (t.cells.getD (row * t.cols + col) 0) := by
      simp only [packed, cell, cellIndex, if_neg (Nat.not_le.mpr hcol), if_pos inCells, Except.map,
        Result.mapError_ok]
    exact ⟨⟨_, found⟩, _, (t.bitsMarkCells row hrow col hcol).trans (congrArg _ found)⟩

end MemoryTable
end TermStats
