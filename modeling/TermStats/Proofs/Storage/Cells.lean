import TermStats.Proofs.Storage.Table
import TermStats.Proofs.Traversal

/-!
Tables in memory that are written to. All cells share one array, and only the column of an access is
checked by itself; still each cell and each group has a value of its own, and an access beyond the
last row is refused.
-/

namespace TermStats

/-- What a table in memory is built from. -/
inductive TableSource where
  | zeros (rows cols : Nat)
  | rowList (cols : Nat) (rows : List (UInt32 × List Int64))
  deriving Repr, DecidableEq

namespace TableSource

def build : TableSource → MemoryTable
  | zeros rows cols => .zeros rows cols
  | rowList cols rows => .ofRows cols rows

def rowCount : TableSource → Nat
  | zeros rows _ => rows
  | rowList _ rows => rows.length

def colCount : TableSource → Nat
  | zeros _ cols => cols
  | rowList cols _ => cols

/-- The value of a cell at first: that of its row, or zero where the row ends before it. -/
def cell (row col : Nat) : TableSource → Int64
  | zeros _ _ => 0
  | rowList _ rows => (rows[row]?.bind (·.2[col]?)).getD 0

def group (row : Nat) : TableSource → UInt32
  | zeros _ _ => 0
  | rowList _ rows => (rows[row]?.map (·.1)).getD 0

end TableSource

inductive TableUpdate where
  | cell (row col : Nat) (value : Int64)
  | group (row : Nat) (group : UInt32)
  deriving Repr, DecidableEq

namespace TableUpdate

def InRange (rows cols : Nat) : TableUpdate → Prop
  | cell row col _ => row < rows ∧ col < cols
  | group row _ => row < rows

/-- The value that an update sets for a cell. -/
def cell? (row col : Nat) : TableUpdate → Option Int64
  | cell r c value => if r = row ∧ c = col then some value else none
  | group _ _ => none

/-- The group that an update sets for a row. -/
def group? (row : Nat) : TableUpdate → Option UInt32
  | cell _ _ _ => none
  | group r g => if r = row then some g else none

/-- What was set last, where `set?` tells what an update sets. -/
def lastSet? {α : Type} (set? : TableUpdate → Option α) (updates : List TableUpdate) : Option α :=
  updates.reverse.findSome? set?

theorem lastSet?_cons {α : Type} (set? : TableUpdate → Option α) (u : TableUpdate)
    (updates : List TableUpdate) :
    lastSet? set? (u :: updates) = (lastSet? set? updates).or (set? u) := by
  rw [lastSet?, List.reverse_cons, List.findSome?_append, ← lastSet?, List.findSome?_singleton]

end TableUpdate

namespace MemoryTable

open TableUpdate

def update (t : MemoryTable) : TableUpdate → Except TableFault MemoryTable
  | .cell row col value => t.setCell row col value
  | .group row group => t.setGroup row group

/-- The table after some updates, unless one of them is refused. -/
def after (t : MemoryTable) (updates : List TableUpdate) : Except TableFault MemoryTable :=
  updates.foldlM update t

/-- The place of a cell as words give it, which wrap around. -/
def wordIndex (t : MemoryTable) (row col : UInt64) : UInt64 :=
  row * t.cols.toUInt64 + col

section Update

variable {t t' : MemoryTable} {u : TableUpdate} {updates : List TableUpdate} {α : Type}

theorem cellIndex_eq_ok {row col i : Nat} : t.cellIndex row col = .ok i ↔
    col < t.cols ∧ i < t.cells.size ∧ row * t.cols + col = i := by
  by_cases beyond : t.cols ≤ col
  · simp [cellIndex, beyond, Nat.not_lt.mpr beyond]
  · have inRow := Nat.lt_of_not_le beyond
    by_cases stored : row * t.cols + col < t.cells.size
    · simp only [cellIndex, if_neg beyond, if_pos stored, Except.ok.injEq]
      constructor
      · intro place
        exact ⟨inRow, place ▸ stored, place⟩
      · intro h
        exact h.2.2
    · simp only [cellIndex, if_neg beyond, if_neg stored]
      constructor
      · intro h
        cases h
      · intro h
        exact absurd (h.2.2 ▸ h.2.1) stored

theorem setGroup_eq_ok {row : Nat} {g : UInt32} : t.setGroup row g = .ok t' ↔
    row < t.groups.size ∧ { t with groups := t.groups.setIfInBounds row g } = t' := by
  simp only [setGroup]
  split
  · rename_i stored
    simp [stored]
  · rename_i beyond
    simp [beyond]

theorem cellIndex_set (i row col : Nat) (value : Int64) :
    ({ t with cells := t.cells.setIfInBounds i value } : MemoryTable).cellIndex row col =
      t.cellIndex row col := by
  simp only [cellIndex, Array.size_setIfInBounds]

/-- A value at the index of a cell is the value of this cell and of no other. -/
theorem cell_of_set {row col i : Nat} (hi : t.cellIndex row col = .ok i) (value : Int64)
    (row' col' : Nat) :
    ({ t with cells := t.cells.setIfInBounds i value } : MemoryTable).cell row' col' =
      if row = row' ∧ col = col' then .ok value else t.cell row' col' := by
  obtain ⟨inRow, stored, place⟩ := cellIndex_eq_ok.mp hi
  simp only [cell, cellIndex_set]
  split
  · rename_i same
    obtain ⟨rfl, rfl⟩ := same
    simp [hi, Except.map, stored]
  · rename_i other
    cases hj : t.cellIndex row' col' with
    | error f => rfl
    | ok j =>
        obtain ⟨inRow', _, place'⟩ := cellIndex_eq_ok.mp hj
        have apart : i ≠ j := by
          intro same
          exact other (blocks_inj inRow inRow' (place.trans (same.trans place'.symm)))
        simp [Except.map, Array.getElem?_setIfInBounds_ne apart]

/-- All that an update does to a cell. -/
theorem cell_update (h : t.update u = .ok t') (row col : Nat) :
    t'.cell row col = ((u.cell? row col).map .ok).getD (t.cell row col) := by
  cases u with
  | cell r c value =>
      obtain ⟨i, hi, rfl⟩ := Result.map_eq_ok.mp h
      rw [cell_of_set hi, cell?]
      split <;> rfl
  | group r g =>
      obtain ⟨_, rfl⟩ := setGroup_eq_ok.mp h
      rfl

/-- All that an update does to the group of a row. -/
theorem group_update (h : t.update u = .ok t') (row : Nat) :
    t'.group row = ((u.group? row).map .ok).getD (t.group row) := by
  cases u with
  | cell r c value =>
      obtain ⟨i, hi, rfl⟩ := Result.map_eq_ok.mp h
      rfl
  | group r g =>
      obtain ⟨stored, rfl⟩ := setGroup_eq_ok.mp h
      simp only [group, group?, Array.size_setIfInBounds]
      by_cases same : r = row
      · subst same
        simp [stored]
      · simp [same, Array.getElem?_setIfInBounds_ne same]

/-- What updates leave of a view on the table, if it is clear what each of them does to it. -/
theorem view_after (view : MemoryTable → Except TableFault α) (set? : TableUpdate → Option α)
    (step : ∀ {t t' u}, t.update u = .ok t' → view t' = ((set? u).map .ok).getD (view t))
    (h : t.after updates = .ok t') :
    view t' = ((lastSet? set? updates).map .ok).getD (view t) := by
  induction updates generalizing t with
  | nil =>
      cases h
      rfl
  | cons u rest ih =>
      obtain ⟨t₁, first, others⟩ := Result.bind_eq_ok.mp h
      rw [ih others, step first, lastSet?_cons]
      cases lastSet? set? rest <;> rfl

end Update

/-- The table has this size, and room for exactly its cells and groups. -/
structure Shaped (t : MemoryTable) (rows cols : Nat) : Prop where
  rowCount : t.rows = rows
  colCount : t.cols = cols
  room : t.cells.size = rows * cols
  groupRoom : t.groups.size = rows

section Shape

variable {t t' : MemoryTable} {rows cols row col : Nat} {u : TableUpdate}
  {updates : List TableUpdate}

theorem Shaped.accepts_iff (shaped : t.Shaped rows cols) :
    (t.cellIndex row col).isOk = true ↔ row < rows ∧ col < cols := by
  constructor
  · intro accepted
    obtain ⟨i, hi⟩ := Result.exists_of_isOk accepted
    obtain ⟨inRow, stored, rfl⟩ := cellIndex_eq_ok.mp hi
    rw [shaped.colCount] at inRow stored
    rw [shaped.room] at stored
    have before : row * cols < rows * cols := Nat.lt_of_le_of_lt (Nat.le_add_right _ _) stored
    exact ⟨Nat.lt_of_mul_lt_mul_right before, inRow⟩
  · rintro ⟨inTable, inRow⟩
    have rowEnd : row * cols + cols ≤ rows * cols := block_end_le inTable
    have hi : t.cellIndex row col = .ok (row * cols + col) := by
      apply cellIndex_eq_ok.mpr
      rw [shaped.colCount, shaped.room]
      exact ⟨inRow, by omega, rfl⟩
    rw [hi]
    rfl

theorem Shaped.refuses_iff (shaped : t.Shaped rows cols) :
    (t.cellIndex row col).isOk = false ↔ rows ≤ row ∨ cols ≤ col := by
  rw [← Bool.not_eq_true, shaped.accepts_iff]
  omega

theorem Shaped.exists_update (shaped : t.Shaped rows cols) (inRange : u.InRange rows cols) :
    ∃ t', t.update u = .ok t' := by
  cases u with
  | cell r c value =>
      obtain ⟨i, hi⟩ := Result.exists_of_isOk (shaped.accepts_iff.mpr inRange)
      exact ⟨_, Result.map_eq_ok.mpr ⟨i, hi, rfl⟩⟩
  | group r g =>
      have stored : r < t.groups.size := by
        rw [shaped.groupRoom]
        exact inRange
      exact ⟨_, setGroup_eq_ok.mpr ⟨stored, rfl⟩⟩

theorem Shaped.update (shaped : t.Shaped rows cols) (h : t.update u = .ok t') :
    t'.Shaped rows cols := by
  cases u with
  | cell r c value =>
      obtain ⟨i, _, rfl⟩ := Result.map_eq_ok.mp h
      exact ⟨shaped.rowCount, shaped.colCount, Array.size_setIfInBounds.trans shaped.room,
        shaped.groupRoom⟩
  | group r g =>
      obtain ⟨_, rfl⟩ := setGroup_eq_ok.mp h
      exact ⟨shaped.rowCount, shaped.colCount, shaped.room,
        Array.size_setIfInBounds.trans shaped.groupRoom⟩

theorem Shaped.exists_after (shaped : t.Shaped rows cols)
    (inRange : ∀ u ∈ updates, u.InRange rows cols) :
    ∃ t', t.after updates = .ok t' ∧ t'.Shaped rows cols := by
  induction updates generalizing t with
  | nil => exact ⟨t, rfl, shaped⟩
  | cons u rest ih =>
      obtain ⟨first, others⟩ := List.forall_mem_cons.mp inRange
      obtain ⟨t₁, h⟩ := shaped.exists_update first
      obtain ⟨t', h', shaped'⟩ := ih (shaped.update h) others
      exact ⟨t', Result.bind_eq_ok.mpr ⟨t₁, h, h'⟩, shaped'⟩

theorem Shaped.cell_eq (shaped : t.Shaped rows cols) {value : Int64} (inRow : col < cols)
    (stored : t.cells[row * cols + col]? = some value) : t.cell row col = .ok value := by
  have within := (Array.getElem?_eq_some_iff.mp stored).1
  have hi : t.cellIndex row col = .ok (row * cols + col) := by
    apply cellIndex_eq_ok.mpr
    rw [shaped.colCount]
    exact ⟨inRow, within, rfl⟩
  rw [cell, hi, Except.map, Array.getD_eq_getD_getElem?, stored, Option.getD_some]

theorem group_eq_of_stored {g : UInt32} (stored : t.groups[row]? = some g) :
    t.group row = .ok g := by
  have within := (Array.getElem?_eq_some_iff.mp stored).1
  rw [group, if_pos within, Array.getD_eq_getD_getElem?, stored, Option.getD_some]

theorem fitRow_eq (cols : Nat) (cells : List Int64) :
    fitRow cols cells = (List.range cols).map fun col => cells.getD col 0 := by
  apply List.ext_getElem
  · simp [length_fitRow]
  · intro col h _
    rw [length_fitRow] at h
    by_cases within : col < cells.length
    · have kept : col < (cells.take cols).length := by
        rw [List.length_take]
        omega
      simp [fitRow, List.getElem_append_left kept, within]
    · have filledUp : (cells.take cols).length ≤ col := by
        rw [List.length_take]
        omega
      simp [fitRow, List.getElem_append_right filledUp, within]

theorem shaped_build (source : TableSource) :
    source.build.Shaped source.rowCount source.colCount := by
  cases source with
  | zeros rows cols => exact ⟨rfl, rfl, Array.size_replicate, Array.size_replicate⟩
  | rowList cols rows =>
      refine ⟨rfl, rfl, ?_, ?_⟩
      · exact size_cells_ofRows cols rows
      · simp [TableSource.build, ofRows, TableSource.rowCount]

theorem cell_build {source : TableSource} (inTable : row < source.rowCount)
    (inRow : col < source.colCount) : source.build.cell row col = .ok (source.cell row col) := by
  apply (shaped_build source).cell_eq inRow
  cases source with
  | zeros rows cols =>
      have rowEnd : row * cols + cols ≤ rows * cols := block_end_le inTable
      have inRow : col < cols := inRow
      have within : row * cols + col < rows * cols := by omega
      simp [TableSource.build, zeros, TableSource.cell, TableSource.colCount, within]
  | rowList cols rows =>
      have inTable : row < rows.length := inTable
      have found : rows[row]? = some rows[row] := List.getElem?_eq_getElem inTable
      have stored := getElem?_blocks (fun r col => r.2.getD col 0) found inRow
      simp only [TableSource.build, ofRows, fitRow_eq, List.getElem?_toArray, TableSource.cell,
        found]
      exact stored

theorem group_build {source : TableSource} (inTable : row < source.rowCount) :
    source.build.group row = .ok (source.group row) := by
  apply group_eq_of_stored
  cases source with
  | zeros rows cols =>
      have inTable : row < rows := inTable
      simp [TableSource.build, zeros, TableSource.group, inTable]
  | rowList cols rows =>
      have inTable : row < rows.length := inTable
      simp [TableSource.build, ofRows, TableSource.group, inTable]

theorem toNat_wordIndex {row col : UInt64} (fits : row.toNat * t.cols + col.toNat < 2 ^ 64) :
    (t.wordIndex row col).toNat = row.toNat * t.cols + col.toNat := by
  simpa [wordIndex] using fits

/-- Where they do wrap around, the place is that of a cell in another row. -/
example : (zeros 1 2).wordIndex 9223372036854775808 1 = (zeros 1 2).wordIndex 0 1 := by decide

end Shape

/-- After any updates in range, which are all accepted, a cell has the value that was set last for
this row and column, or else the one that it was built with, and a row has the group that was set
last for it. A further update changes no other cell and no group of another row. The place of a cell
in range is a word; and wherever words do not wrap around, an access to a cell is refused exactly if
its row or its column is out of range. -/
theorem cells_are_independent {source : TableSource} {updates : List TableUpdate}
    (fits : source.rowCount * source.colCount < 2 ^ 64)
    (inRange : ∀ u ∈ updates, u.InRange source.rowCount source.colCount) :
    ∃ t, source.build.after updates = .ok t ∧
      t.rows = source.rowCount ∧ t.cols = source.colCount ∧
      (∀ row < source.rowCount, ∀ col < source.colCount,
        t.cell row col = .ok ((lastSet? (·.cell? row col) updates).getD (source.cell row col)) ∧
        row * t.cols + col < 2 ^ 64) ∧
      (∀ row < source.rowCount,
        t.group row = .ok ((lastSet? (·.group? row) updates).getD (source.group row))) ∧
      (∀ u, u.InRange source.rowCount source.colCount → ∃ t', t.update u = .ok t' ∧
        (∀ row col, u.cell? row col = none → t'.cell row col = t.cell row col) ∧
        ∀ row, u.group? row = none → t'.group row = t.group row) ∧
      ∀ row col : UInt64, row.toNat * t.cols + col.toNat < 2 ^ 64 →
        (t.wordIndex row col).toNat = row.toNat * t.cols + col.toNat ∧
        ((t.cell row.toNat col.toNat).isOk = false ↔
          source.rowCount ≤ row.toNat ∨ source.colCount ≤ col.toNat) ∧
        ((t.bit row.toNat col.toNat).isOk = false ↔
          source.rowCount ≤ row.toNat ∨ source.colCount ≤ col.toNat) ∧
        ∀ value, (t.setCell row.toNat col.toNat value).isOk = false ↔
          source.rowCount ≤ row.toNat ∨ source.colCount ≤ col.toNat := by
  obtain ⟨t, h, shaped⟩ := (shaped_build source).exists_after inRange
  refine ⟨t, h, shaped.rowCount, shaped.colCount, ?_, ?_, ?_, ?_⟩
  · intro row inTable col inRow
    have value := view_after (·.cell row col) (·.cell? row col) (cell_update · row col) h
    have rowEnd : row * source.colCount + source.colCount ≤ _ := block_end_le inTable
    rw [cell_build inTable inRow, Option.getD_map] at value
    refine ⟨value, ?_⟩
    rw [shaped.colCount]
    omega
  · intro row inTable
    have value := view_after (·.group row) (·.group? row) (group_update · row) h
    rwa [group_build inTable, Option.getD_map] at value
  · intro u hu
    obtain ⟨t', h'⟩ := shaped.exists_update hu
    refine ⟨t', h', ?_, ?_⟩
    · intro row col other
      rw [cell_update h', other]
      rfl
    · intro row other
      rw [group_update h', other]
      rfl
  · intro row col fits
    have refused : (t.cellIndex row.toNat col.toNat).isOk = false ↔
        source.rowCount ≤ row.toNat ∨ source.colCount ≤ col.toNat := shaped.refuses_iff
    refine ⟨toNat_wordIndex fits, ?_, ?_, ?_⟩
    · rwa [cell, Result.isOk_map]
    · rwa [bit, cell, Result.isOk_map, Result.isOk_map]
    · intro value
      rwa [setCell, Result.isOk_map]

/-- A row too short, a row too long, and a cell that is set twice. -/
theorem cells_are_independent_uneven :
    ∃ (source : TableSource) (updates : List TableUpdate) (t : MemoryTable),
    source = .rowList 2 [(1, [5]), (2, [6, 7, 8])] ∧
    updates = [.cell 1 0 (-3), .group 0 9, .cell 0 1 4, .cell 1 0 11] ∧
    source.rowCount * source.colCount < 2 ^ 64 ∧
    (∀ u ∈ updates, u.InRange source.rowCount source.colCount) ∧
    source.build.after updates = .ok t ∧
    t.cell 0 0 = .ok 5 ∧ t.cell 0 1 = .ok 4 ∧ t.cell 1 0 = .ok 11 ∧ t.cell 1 1 = .ok 7 ∧
    t.group 0 = .ok 9 ∧ t.group 1 = .ok 2 ∧ (t.cell 2 0).isOk = false := by
  have fits : (TableSource.rowList 2 [(1, [5]), (2, [6, 7, 8])]).rowCount *
      (TableSource.rowList 2 [(1, [5]), (2, [6, 7, 8])]).colCount < 2 ^ 64 := by decide
  have inRange : ∀ u ∈ [TableUpdate.cell 1 0 (-3), .group 0 9, .cell 0 1 4, .cell 1 0 11],
      u.InRange 2 2 := by
    simp [InRange]
  obtain ⟨t, h, -, cols, cells, groups, -, refused⟩ := cells_are_independent fits inRange
  refine ⟨_, _, t, rfl, rfl, fits, inRange, h, (cells 0 (by decide) 0 (by decide)).1,
    (cells 0 (by decide) 1 (by decide)).1, (cells 1 (by decide) 0 (by decide)).1,
    (cells 1 (by decide) 1 (by decide)).1, groups 0 (by decide), groups 1 (by decide), ?_⟩
  have noWrap : (2 : UInt64).toNat * t.cols + (0 : UInt64).toNat < 2 ^ 64 := by
    rw [cols]
    decide
  exact (refused 2 0 noWrap).2.1.mpr (.inl (by decide))

end MemoryTable
end TermStats
