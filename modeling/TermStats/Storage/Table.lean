import TermStats.Fault

/-!
Per-document tables: one group and some stat columns for each row. A `PackedTable` is
what a host supplies: its size is fixed, and any access to it may panic. A `MemoryTable`
keeps its cells in one array, row by row.
-/

namespace TermStats

structure PackedTable where
  rowCount : Nat
  colCount : Nat
  cell : (row col : Nat) → Except Panic Int64
  group : (row : Nat) → Except Panic UInt32
  /-- Whether a cell counts in binary metrics. A host may keep the bits by themselves. -/
  bit : (row col : Nat) → Except Panic Bool := fun row col => (cell row col).map (· ≠ 0)

namespace PackedTable

instance : Inhabited PackedTable where
  default :=
    { rowCount := 0
      colCount := 0
      cell := fun _ _ => .error default
      group := fun _ => .error default }

/-- The table whose groups cannot be read in the given rows. -/
def unreadable (t : PackedTable) (rows : List Nat) : PackedTable :=
  { t with group := fun row =>
      if rows.contains row then .error (.ofText s!"row {row} unreadable") else t.group row }

end PackedTable

inductive TableFault where
  | column (col cols : Nat)
  | index (index length : Nat)
  deriving Repr, DecidableEq, Inhabited

def TableFault.message : TableFault → String
  | column col cols => s!"column {col} out of range ({cols})"
  | index i length => s!"index out of bounds: the len is {length} but the index is {i}"

structure MemoryTable where
  rows : Nat
  cols : Nat
  cells : Array Int64
  groups : Array UInt32
  deriving Repr, DecidableEq, Inhabited

namespace MemoryTable

/-- A table of zeros, with all rows in group 0. -/
def zeros (rows cols : Nat) : MemoryTable :=
  ⟨rows, cols, Array.replicate (rows * cols) 0, Array.replicate rows 0⟩

/-- The cells of a row, cut to `cols` or filled up with zeros. -/
def fitRow (cols : Nat) (cells : List Int64) : List Int64 :=
  cells.take cols ++ List.replicate (cols - cells.length) 0

def ofRows (cols : Nat) (rows : List (UInt32 × List Int64)) : MemoryTable :=
  ⟨rows.length, cols, (rows.flatMap fun r => fitRow cols r.2).toArray, (rows.map (·.1)).toArray⟩

/-- Where a cell is kept. Only the column is checked by itself. -/
def cellIndex (t : MemoryTable) (row col : Nat) : Except TableFault Nat :=
  if t.cols ≤ col then .error (.column col t.cols)
  else
    let i := row * t.cols + col
    if i < t.cells.size then .ok i else .error (.index i t.cells.size)

def cell (t : MemoryTable) (row col : Nat) : Except TableFault Int64 :=
  (t.cellIndex row col).map (t.cells.getD · 0)

def bit (t : MemoryTable) (row col : Nat) : Except TableFault Bool :=
  (t.cell row col).map (· ≠ 0)

def group (t : MemoryTable) (row : Nat) : Except TableFault UInt32 :=
  if row < t.groups.size then .ok (t.groups.getD row 0) else .error (.index row t.groups.size)

def setCell (t : MemoryTable) (row col : Nat) (value : Int64) : Except TableFault MemoryTable :=
  (t.cellIndex row col).map fun i => { t with cells := t.cells.setIfInBounds i value }

def setGroup (t : MemoryTable) (row : Nat) (group : UInt32) : Except TableFault MemoryTable :=
  if row < t.groups.size then .ok { t with groups := t.groups.setIfInBounds row group }
  else .error (.index row t.groups.size)

/-- The table as a host would supply it; access out of range panics. -/
def packed (t : MemoryTable) : PackedTable where
  rowCount := t.rows
  colCount := t.cols
  cell row col := (t.cell row col).mapError (.ofText ·.message)
  group row := (t.group row).mapError (.ofText ·.message)

def debugText (t : MemoryTable) : String :=
  s!"MemoryTable \x7b rows: {t.rows}, cols: {t.cols} \x7d"

end MemoryTable
end TermStats
