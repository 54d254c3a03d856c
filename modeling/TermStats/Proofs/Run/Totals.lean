import TermStats.Field.Postings
import TermStats.Proofs.Order
import TermStats.Proofs.Traversal
import TermStats.Run.GroupTotals

/-!
Totals as sums over samples. What adding a row reads of it is its sample, and the entries are the
groups of the samples in ascending order, each with the sums of its samples' columns.
-/

namespace TermStats

open Result

/-- What is read of a row: its group and, unless that is 0, its values. -/
abbrev Sample := UInt32 × List Int64

/-- The wrapping sum. -/
def wrappingSum (values : List Int64) : Int64 :=
  values.foldl (· + ·) 0

/-- The stats of a group, one for each column. -/
def columnSums (numStats : Nat) (samples : List Sample) (group : UInt32) : List Int64 :=
  (List.range numStats).map fun col =>
    wrappingSum ((samples.filter (·.1 = group)).map (·.2.getD col 0))

def countedGroups (samples : List Sample) : List UInt32 :=
  distinct ((samples.map (·.1)).filter (· ≠ 0))

def groupSums (numStats : Nat) (samples : List Sample) : List (UInt32 × List Int64) :=
  (countedGroups samples).map fun group => (group, columnSums numStats samples group)

/-- What a cell counts for: in binary mode its bit. -/
def readValue (binary : Bool) (table : PackedTable) (row col : Nat) : Option Int64 :=
  if binary then (table.bit row col).toOption.map fun b => if b then 1 else 0
  else (table.cell row col).toOption

/-- The sample of a document, when the table has a row for it, in a group that there may be, and no
access to it panics. -/
def readRow (numGroups numStats : Nat) (binary : Bool) (table : PackedTable) (doc : Int64) :
    Option Sample :=
  if doc < 0 ∨ table.rowCount ≤ doc.toInt.toNat then none
  else
    let row := doc.toInt.toNat
    (table.group row).toOption.bind fun group =>
      if group = 0 then some (0, [])
      else if numGroups ≤ group.toNat then none
      else ((List.range numStats).mapM (readValue binary table row)).map (group, ·)

/-- A document of a posting list, with the table of its shard. -/
abbrev Document := PackedTable × Except PostingFault Int64

/-- The sample of a document, when its id and its row can be read. -/
def readDoc (numGroups numStats : Nat) (binary : Bool) : Document → Option Sample
  | (table, .ok doc) => readRow numGroups numStats binary table doc
  | (_, .error _) => none

/-- The sum of a column over the samples of a group. -/
def columnSum (samples : List Sample) (group : UInt32) (col : Nat) : Int64 :=
  wrappingSum ((samples.filter (·.1 = group)).map (·.2.getD col 0))

theorem columnSums_eq (numStats : Nat) (samples : List Sample) (group : UInt32) :
    columnSums numStats samples group = (List.range numStats).map (columnSum samples group) := rfl

theorem mem_countedGroups {samples : List Sample} {group : UInt32} :
    group ∈ countedGroups samples ↔ group ≠ 0 ∧ ∃ s ∈ samples, s.1 = group := by
  rw [countedGroups, mem_distinct]
  simp [and_comm]

theorem mem_countedGroups_concat {samples : List Sample} {s : Sample} {group : UInt32} :
    group ∈ countedGroups (samples ++ [s]) ↔
      group ∈ countedGroups samples ∨ s.1 ≠ 0 ∧ group = s.1 := by
  simp only [mem_countedGroups, List.mem_append, List.mem_singleton]
  grind

theorem wrappingSum_concat (values : List Int64) (v : Int64) :
    wrappingSum (values ++ [v]) = wrappingSum values + v := List.foldl_append

theorem columnSum_concat (samples : List Sample) (s : Sample) (group : UInt32) (col : Nat) :
    columnSum (samples ++ [s]) group col =
      columnSum samples group col + if s.1 = group then s.2.getD col 0 else 0 := by
  by_cases h : s.1 = group
  · simp [columnSum, h, wrappingSum_concat]
  · simp [columnSum, h]

/-- A group without samples sums to zero. -/
theorem columnSum_of_not_mem {samples : List Sample} {group : UInt32} (col : Nat)
    (h : ∀ s ∈ samples, s.1 ≠ group) : columnSum samples group col = 0 := by
  have none : samples.filter (·.1 = group) = [] := by
    simpa using h
  rw [columnSum, none]
  rfl

theorem countedGroups_perm {samples samples' : List Sample} (perm : samples.Perm samples') :
    countedGroups samples = countedGroups samples' := by
  refine distinct_eq (pairwise_distinct _) fun group => mem_distinct.trans ?_
  exact ((perm.map _).filter _).symm.mem_iff

theorem columnSums_perm (numStats : Nat) {samples samples' : List Sample}
    (perm : samples.Perm samples') :
    columnSums numStats samples = columnSums numStats samples' := by
  funext group
  refine List.map_congr_left fun col _ => ?_
  refine ((perm.filter _).map _).foldl_eq' (fun x _ y _ sum => ?_) 0
  rw [Int64.add_assoc, Int64.add_comm x y, Int64.add_assoc]

end TermStats
