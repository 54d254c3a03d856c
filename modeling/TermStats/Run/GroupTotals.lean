import TermStats.Storage.Table

/-!
The stats of one term, group by group: for each group the wrapping sums of the stat
columns over the rows added, or in binary mode the numbers of rows with a non-zero
cell. Group 0 holds the documents that are filtered out and is never counted. There is
room for all groups from the start; clearing the totals for the next term goes through
the groups that were touched and no others.
-/

namespace TermStats

inductive RowFault where
  | beyondTable (row : Int64) (rows : Nat)
  | groupRange (row : Nat) (group : UInt32) (numGroups : Nat)
  deriving Repr, DecidableEq, Inhabited

def RowFault.message : RowFault → String
  | beyondTable row rows => s!"doc id {row} beyond the table ({rows} rows)"
  | groupRange row group numGroups =>
      s!"doc {row} is in group {group}, num_groups is {numGroups}"

def RowFault.toFault (element : String) (f : RowFault) : Fault :=
  .error (.invalidFormat element f.message)

/-- Access to a group that there is no room for. -/
inductive RoomFault where
  | flag (index length : Nat)
  | stats (stop length : Nat)
  deriving Repr, DecidableEq, Inhabited

def RoomFault.message : RoomFault → String
  | flag i length => (TableFault.index i length).message
  | stats stop length => s!"range end index {stop} out of range for slice of length {length}"

def RoomFault.toFault (f : RoomFault) : Fault :=
  .panic (.ofText f.message)

structure GroupTotals where
  numGroups : Nat
  numStats : Nat
  binary : Bool
  /-- The stats of group 0, then those of group 1, and so on. -/
  sums : Array Int64
  /-- The groups that a row was added to, each once. -/
  touched : List UInt32
  /-- For each group whether it is among those touched. -/
  seen : Array Bool
  /-- The stats of the touched groups, when they were last sorted. -/
  listing : List Int64
  deriving Repr, DecidableEq, Inhabited

namespace GroupTotals

def empty (numGroups numStats : Nat) (binary : Bool) : GroupTotals where
  numGroups := numGroups
  numStats := numStats
  binary := binary
  sums := Array.replicate (numGroups * numStats) 0
  touched := []
  seen := Array.replicate numGroups false
  listing := []

def isEmpty (t : GroupTotals) : Bool :=
  t.touched.isEmpty

/-- Where the stats of a group start. -/
def start (t : GroupTotals) (group : UInt32) : Except Fault Nat :=
  let stop := (group.toNat + 1) * t.numStats
  if stop ≤ t.sums.size then .ok (group.toNat * t.numStats)
  else .error (RoomFault.stats stop t.sums.size).toFault

/-- What one row contributes to the stat of a column. -/
def contribution (binary : Bool) (table : PackedTable) (row col : Nat) : Except Panic Int64 :=
  if binary then (table.bit row col).map fun b => if b then 1 else 0
  else table.cell row col

/-- Puts a group among those touched, unless it is there. -/
def touch (t : GroupTotals) (group : UInt32) : Attempt GroupTotals :=
  match t.seen[group.toNat]? with
  | none => (.error (RoomFault.flag group.toNat t.seen.size).toFault, t)
  | some true => (.ok (), t)
  | some false =>
      (.ok (), { t with
        seen := t.seen.setIfInBounds group.toNat true
        touched := t.touched ++ [group] })

/-- Adds one cell of a row to the group whose stats start at `start`. -/
def addCell (table : PackedTable) (row start : Nat) (t : GroupTotals) (col : Nat) :
    Attempt GroupTotals :=
  match contribution t.binary table row col with
  | .error p => (.error (.panic p), t)
  | .ok v => (.ok (), { t with sums := t.sums.modify (start + col) (· + v) })

def addCells (t : GroupTotals) (table : PackedTable) (row : Nat) (group : UInt32) :
    Attempt GroupTotals :=
  match t.start group with
  | .error f => (.error f, t)
  | .ok start => .each (addCell table row start) t (List.range t.numStats)

/-- The group of a row. `element` names the place that a malformed row comes from. -/
def groupOf (numGroups : Nat) (table : PackedTable) (element : String) (row : Int64) :
    Except Fault UInt32 :=
  let r := row.toInt.toNat
  if row < 0 ∨ table.rowCount ≤ r then
    .error ((RowFault.beyondTable row table.rowCount).toFault element)
  else
    match table.group r with
    | .error p => .error (.panic p)
    | .ok group =>
        if group ≠ 0 ∧ numGroups ≤ group.toNat then
          .error ((RowFault.groupRange r group numGroups).toFault element)
        else .ok group

/-- Adds a row to its group. -/
def addRow (t : GroupTotals) (table : PackedTable) (element : String) (row : Int64) :
    Attempt GroupTotals :=
  match groupOf t.numGroups table element row with
  | .error f => (.error f, t)
  | .ok group =>
      if group = 0 then (.ok (), t)
      else (t.touch group).andThen (·.addCells table row.toInt.toNat group)

def statsOf (t : GroupTotals) (group : UInt32) : Except Fault (List Int64) :=
  (t.start group).map fun start => (t.sums.extract start (start + t.numStats)).toList

/-- Puts the touched groups into ascending order and lists their stats, those of the first group,
then those of the second, and so on. -/
def sort (t : GroupTotals) : Attempt GroupTotals :=
  let touched := t.touched.mergeSort
  match touched.mapM t.statsOf with
  | .error f => (.error f, { t with touched := touched, listing := [] })
  | .ok stats => (.ok (), { t with touched := touched, listing := stats.flatten })

def zeroed (sums : Array Int64) (start count : Nat) : Array Int64 :=
  (List.range count).foldl (fun sums col => sums.setIfInBounds (start + col) 0) sums

/-- Sets the stats of a group back, and its flag. -/
def reset (t : GroupTotals) (group : UInt32) : Attempt GroupTotals :=
  match t.start group with
  | .error f => (.error f, t)
  | .ok start =>
      let t := { t with sums := zeroed t.sums start t.numStats }
      if group.toNat < t.seen.size then
        (.ok (), { t with seen := t.seen.setIfInBounds group.toNat false })
      else (.error (RoomFault.flag group.toNat t.seen.size).toFault, t)

/-- Makes the totals ready for another term. -/
def clear (t : GroupTotals) : Attempt GroupTotals :=
  (Attempt.each reset t t.touched).andThen fun t => (.ok (), { t with touched := [] })

end GroupTotals
end TermStats
