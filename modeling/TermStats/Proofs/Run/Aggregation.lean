import Mathlib.Data.List.Induction
import TermStats.Proofs.Run.Accumulation
import TermStats.Proofs.Storage.Table

/-!
Totals as a plain aggregation of rows. Whatever calls were made on them, in whatever order, sorting
lists the groups of the rows added since they were last cleared, and for each group and column the
sum over its rows, or the number of those whose bit is set there.
-/

namespace TermStats

/-- A row that a table has. -/
structure TableRow where
  table : PackedTable
  row : Nat

def PackedTable.row? (table : PackedTable) (row : Int64) : Option TableRow :=
  if row < 0 ∨ table.rowCount ≤ row.toInt.toNat then none else some ⟨table, row.toInt.toNat⟩

namespace TableRow

def group (r : TableRow) : UInt32 :=
  (r.table.group r.row).toOption.getD 0

def cell (r : TableRow) (col : Nat) : Int64 :=
  (r.table.cell r.row col).toOption.getD 0

def bit (r : TableRow) (col : Nat) : Bool :=
  (r.table.bit r.row col).toOption.getD false

/-- The row is filtered out, or in a group that there is. -/
def fits (numGroups : Nat) (r : TableRow) : Bool :=
  r.group = 0 ∨ r.group.toNat < numGroups

end TableRow

/-- What may be called on totals. -/
inductive TotalsCall where
  | add (table : PackedTable) (element : String) (row : Int64)
  | sort
  | clear

namespace TotalsCall

/-- The table that the call reads, if any, does not panic and has all columns. -/
def Readable (numStats : Nat) : TotalsCall → Prop
  | add table _ _ => table.Total ∧ numStats ≤ table.colCount
  | sort | clear => True

/-- The table that the call reads, if any, has the bits of its cells. -/
def MarksCells : TotalsCall → Prop
  | add table _ _ => table.BitsMarkCells
  | sort | clear => True

/-- The rows added since the totals were last cleared, after another call. -/
def keep (numGroups : Nat) (rows : List TableRow) : TotalsCall → List TableRow
  | add table _ row => rows ++ ((table.row? row).filter (·.fits numGroups)).toList
  | sort => rows
  | clear => []

def kept (numGroups : Nat) (calls : List TotalsCall) : List TableRow :=
  calls.foldl (keep numGroups) []

end TotalsCall

/-- The sum of a column over the rows of a group, or how many of them have their bit set there. -/
def aggregate (binary : Bool) (rows : List TableRow) (group : UInt32) (col : Nat) : Int64 :=
  if binary then (rows.countP fun r => r.group = group ∧ r.bit col).toInt64
  else wrappingSum ((rows.filter (·.group = group)).map (·.cell col))

namespace GroupTotals

def call (t : GroupTotals) : TotalsCall → Attempt GroupTotals
  | .add table element row => t.addRow table element row
  | .sort => t.sort
  | .clear => t.clear

/-- What calls leave behind, also those that fail. -/
def after (t : GroupTotals) (calls : List TotalsCall) : GroupTotals :=
  calls.foldl (fun t c => (t.call c).2) t

/-- The groups that sorting lists, and their stats. -/
def sortedStats (t : GroupTotals) : List UInt32 × List Int64 :=
  (t.sort.2.touched, t.sort.2.listing)

end GroupTotals

section Rows

namespace TableRow

/-- The group of the row and its first columns can be read. -/
def Readable (numStats : Nat) (r : TableRow) : Prop :=
  r.table.group r.row = .ok r.group ∧ ∀ col < numStats,
    r.table.cell r.row col = .ok (r.cell col) ∧ r.table.bit r.row col = .ok (r.bit col)

/-- What a row adds to the stat of a column. -/
def value (binary : Bool) (r : TableRow) (col : Nat) : Int64 :=
  if binary then (if r.bit col then 1 else 0) else r.cell col

def sample (numStats : Nat) (binary : Bool) (r : TableRow) : Sample :=
  (r.group, if r.group = 0 then [] else (List.range numStats).map (r.value binary))

end TableRow

open Result

variable {table : PackedTable} {numGroups numStats : Nat} {binary : Bool} {element : String}
  {row : Int64} {r : TableRow} {rows : List TableRow} {group : UInt32} {col : Nat}

theorem PackedTable.of_row? (h : table.row? row = some r) :
    ¬ (row < 0 ∨ r.table.rowCount ≤ r.row) ∧ r.table = table ∧ row.toInt.toNat = r.row := by
  simp only [row?] at h
  split at h
  · cases h
  · rename_i inTable
    cases h
    exact ⟨inTable, rfl, rfl⟩

theorem PackedTable.Total.readable (total : table.Total) (wide : numStats ≤ table.colCount)
    (h : table.row? row = some r) : r.Readable numStats := by
  obtain ⟨inTable, rfl, -⟩ := PackedTable.of_row? h
  obtain ⟨⟨group, hgroup⟩, cells⟩ := total r.row (Nat.lt_of_not_le (not_or.mp inTable).2)
  refine ⟨?_, fun col hcol => ?_⟩
  · rw [TableRow.group, hgroup]
    rfl
  · obtain ⟨⟨v, hv⟩, b, hb⟩ := cells col (Nat.lt_of_lt_of_le hcol wide)
    rw [TableRow.cell, TableRow.bit, hv, hb]
    exact ⟨rfl, rfl⟩

/-- A row that was kept is one that a call has added. -/
theorem TotalsCall.exists_add_of_mem_kept {calls : List TotalsCall}
    (h : r ∈ kept numGroups calls) :
    ∃ table element row, .add table element row ∈ calls ∧ table.row? row = some r := by
  induction calls using List.reverseRecOn with
  | nil => cases h
  | append_singleton calls call ih =>
      have before (h : r ∈ kept numGroups calls) : ∃ table element row,
          .add table element row ∈ calls ++ [call] ∧ table.row? row = some r := by
        obtain ⟨table, element, row, member, found⟩ := ih h
        exact ⟨table, element, row, List.mem_append_left _ member, found⟩
      rw [kept, List.foldl_append] at h
      cases call with
      | add table element row =>
          rcases List.mem_append.mp h with h | h
          · exact before h
          · refine ⟨table, element, row, List.mem_append_right _ (List.mem_singleton_self _), ?_⟩
            exact (Option.filter_eq_some_iff.mp (Option.mem_toList.mp h)).1
      | sort => exact before h
      | clear => cases h

/-- In a table with the bits of its cells, a row has the bit of each of its cells. -/
theorem TableRow.bit_eq (marks : table.BitsMarkCells) (h : table.row? row = some r)
    (hcol : col < table.colCount) : r.bit col = decide (r.cell col ≠ 0) := by
  obtain ⟨inTable, rfl, -⟩ := PackedTable.of_row? h
  rw [bit, cell, marks r.row (Nat.lt_of_not_le (not_or.mp inTable).2) col hcol]
  cases r.table.cell r.row col <;> rfl

theorem groupOf_outside (h : table.row? row = none) :
    GroupTotals.groupOf numGroups table element row =
      .error ((RowFault.beyondTable row table.rowCount).toFault element) := by
  simp only [PackedTable.row?] at h
  split at h
  · rename_i outside
    rw [GroupTotals.groupOf, if_pos outside]
  · cases h

theorem groupOf_row (h : table.row? row = some r) (readable : r.Readable numStats) :
    GroupTotals.groupOf numGroups table element row =
      if r.fits numGroups then .ok r.group
      else .error ((RowFault.groupRange r.row r.group numGroups).toFault element) := by
  obtain ⟨inTable, rfl, place⟩ := PackedTable.of_row? h
  rw [GroupTotals.groupOf, place, if_neg inTable, readable.1]
  by_cases zero : r.group = 0
  · simp [TableRow.fits, zero]
  · by_cases inRange : r.group.toNat < numGroups
    · simp [TableRow.fits, inRange]
    · simp [TableRow.fits, zero, inRange, Nat.le_of_not_lt inRange]

theorem rowSample_row (h : table.row? row = some r) (readable : r.Readable numStats)
    (fits : r.fits numGroups = true) :
    GroupTotals.rowSample numGroups numStats binary table element row =
      .ok (r.sample numStats binary) := by
  have values : (List.range numStats).mapM (GroupTotals.cellValue binary r.table r.row) =
      .ok ((List.range numStats).map (r.value binary)) := by
    refine mapM_eq_ok_map fun col hcol => ?_
    obtain ⟨cell, bit⟩ := readable.2 col (List.mem_range.mp hcol)
    rw [GroupTotals.cellValue_eq_ok, readValue, cell, bit]
    cases binary <;> rfl
  rw [GroupTotals.rowSample, groupOf_row h readable, if_pos fits, TableRow.sample]
  obtain ⟨-, rfl, place⟩ := PackedTable.of_row? h
  by_cases zero : r.group = 0
  · simp only [zero, if_true]
  · simp only [if_neg zero, place, values]
    rfl

theorem mem_countedGroups_rows : group ∈ countedGroups (rows.map (·.sample numStats binary)) ↔
    group ≠ 0 ∧ ∃ r ∈ rows, r.group = group := by
  simp [mem_countedGroups, TableRow.sample]

theorem wrappingSum_bits (bits : TableRow → Bool) :
    wrappingSum (rows.map fun r => if bits r then 1 else 0) =
      Int64.ofNat (rows.countP bits) := by
  induction rows using List.reverseRecOn with
  | nil => rfl
  | append_singleton rows r ih =>
      rw [List.map_append, List.map_singleton, wrappingSum_concat, ih, List.countP_append]
      cases marked : bits r <;> simp [marked, Int64.ofNat_add]

/-- The sums over the samples are those of the aggregation. -/
theorem columnSum_rows (counted : group ≠ 0) (hcol : col < numStats) :
    columnSum (rows.map (·.sample numStats binary)) group col =
      aggregate binary rows group col := by
  have values : ((rows.map (·.sample numStats binary)).filter (·.1 = group)).map (·.2.getD col 0) =
      (rows.filter (·.group = group)).map (·.value binary col) := by
    rw [List.filter_map, List.map_map]
    refine List.map_congr_left fun r hr => ?_
    have own : r.group = group := by simpa [TableRow.sample] using (List.mem_filter.mp hr).2
    simp [TableRow.sample, own, counted, hcol]
  rw [columnSum, values, aggregate]
  cases binary with
  | false => rfl
  | true =>
      simp only [TableRow.value, if_true, wrappingSum_bits, List.countP_filter]
      simp [and_comm]

end Rows

namespace GroupTotals

section Calls

variable {t : GroupTotals} {samples : List Sample} {table : PackedTable} {element : String}
  {row : Int64} {r : TableRow} {numGroups numStats : Nat} {binary : Bool} {rows : List TableRow}

theorem addRow_outside (h : table.row? row = none) : t.addRow table element row =
    (.error ((RowFault.beyondTable row table.rowCount).toFault element), t) := by
  rw [addRow, groupOf_outside h]

theorem addRow_unfit (h : table.row? row = some r) (readable : r.Readable t.numStats)
    (unfit : r.fits t.numGroups = false) : t.addRow table element row =
      (.error ((RowFault.groupRange r.row r.group t.numGroups).toFault element), t) := by
  rw [addRow, groupOf_row h readable, unfit]
  rfl

theorem addRow_fit (element : String) (holds : t.Holds samples) (h : table.row? row = some r)
    (readable : r.Readable t.numStats) (fits : r.fits t.numGroups = true) :
    ∃ t', t.addRow table element row = (.ok (), t') ∧
      t'.Holds (samples ++ [r.sample t.numStats t.binary]) ∧ t'.shape = t.shape := by
  have added := addRow_yields holds table element row
  rwa [rowSample_row h readable fits] at added

/-- The totals are those of the rows. -/
structure TotalOf (numGroups numStats : Nat) (binary : Bool) (rows : List TableRow)
    (t : GroupTotals) : Prop where
  shape : t.shape = (numGroups, numStats, binary)
  holds : t.Holds (rows.map (·.sample numStats binary))

theorem TotalOf.call (h : TotalOf numGroups numStats binary rows t) {call : TotalsCall}
    (readable : call.Readable numStats) :
    TotalOf numGroups numStats binary (call.keep numGroups rows) (t.call call).2 := by
  obtain ⟨shape, holds⟩ := h
  obtain ⟨rfl, rfl, rfl⟩ : t.numGroups = numGroups ∧ t.numStats = numStats ∧ t.binary = binary := by
    simpa [GroupTotals.shape] using shape
  cases call with
  | add table element row =>
      cases hrow : table.row? row with
      | none =>
          simp only [GroupTotals.call, addRow_outside hrow, TotalsCall.keep, hrow]
          exact ⟨shape, by simpa using holds⟩
      | some r =>
          have cells := readable.1.readable readable.2 hrow
          cases hfits : r.fits t.numGroups with
          | false =>
              simp only [GroupTotals.call, addRow_unfit hrow cells hfits, TotalsCall.keep, hrow]
              exact ⟨shape, by simpa [Option.filter_some, hfits] using holds⟩
          | true =>
              obtain ⟨t', ht, after, shape'⟩ := addRow_fit element holds hrow cells hfits
              simp only [GroupTotals.call, ht, TotalsCall.keep, hrow]
              exact ⟨shape', by simpa [Option.filter_some, hfits] using after⟩
  | sort =>
      simp only [GroupTotals.call, sort_eq holds]
      exact ⟨shape, holds_sorted holds⟩
  | clear =>
      simp only [GroupTotals.call, clear_eq holds.toClearBut]
      exact ⟨rfl, holds_empty _ _ _ _⟩

theorem TotalOf.after (h : TotalOf numGroups numStats binary rows t) {calls : List TotalsCall}
    (readable : ∀ call ∈ calls, call.Readable numStats) :
    TotalOf numGroups numStats binary (calls.foldl (TotalsCall.keep numGroups) rows)
      (t.after calls) := by
  induction calls generalizing t rows with
  | nil => exact h
  | cons call rest ih =>
      obtain ⟨first, others⟩ := List.forall_mem_cons.mp readable
      exact ih (h.call first) others

/-- Where the tables have the bits of their cells, what is counted are the cells that are not
zero. -/
theorem aggregate_of_marksCells {calls : List TotalsCall}
    (readable : ∀ call ∈ calls, call.Readable numStats) (marks : ∀ call ∈ calls, call.MarksCells)
    (group : UInt32) {col : Nat} (hcol : col < numStats) :
    aggregate true (TotalsCall.kept numGroups calls) group col =
      ((TotalsCall.kept numGroups calls).countP fun r =>
        r.group = group ∧ r.cell col ≠ 0).toInt64 := by
  rw [aggregate, if_pos rfl]
  refine congrArg Nat.toInt64 (List.countP_congr fun r hr => ?_)
  obtain ⟨table, element, row, member, found⟩ := TotalsCall.exists_add_of_mem_kept hr
  have wide := (readable _ member).2
  rw [TableRow.bit_eq (marks _ member) found (Nat.lt_of_lt_of_le hcol wide)]
  simp

theorem totalOf_after (numGroups numStats : Nat) (binary : Bool) {calls : List TotalsCall}
    (readable : ∀ call ∈ calls, call.Readable numStats) :
    TotalOf numGroups numStats binary (TotalsCall.kept numGroups calls)
      ((empty numGroups numStats binary).after calls) := by
  have start : TotalOf numGroups numStats binary [] (empty numGroups numStats binary) :=
    ⟨rfl, holds_empty numGroups numStats binary []⟩
  exact start.after readable

theorem TotalOf.sortedStats_eq (h : TotalOf numGroups numStats binary rows t) :
    t.sort.1 = .ok () ∧ t.sortedStats = (countedGroups (rows.map (·.sample numStats binary)),
      (countedGroups (rows.map (·.sample numStats binary))).flatMap
        (columnSums numStats (rows.map (·.sample numStats binary)))) := by
  obtain ⟨shape, holds⟩ := h
  obtain ⟨rfl, rfl, rfl⟩ : t.numGroups = numGroups ∧ t.numStats = numStats ∧ t.binary = binary := by
    simpa [GroupTotals.shape] using shape
  rw [sortedStats, sort_eq holds]
  exact ⟨rfl, rfl⟩

theorem TotalOf.isEmpty_iff (h : TotalOf numGroups numStats binary rows t) :
    t.isEmpty = true ↔ ∀ r ∈ rows, r.group = 0 := by
  rw [isEmpty, List.isEmpty_iff, List.eq_nil_iff_forall_not_mem]
  simp only [h.holds.counted, mem_countedGroups_rows]
  refine ⟨fun none r hr => ?_, fun zero group ⟨counted, r, hr, own⟩ => ?_⟩
  · by_cases counted : r.group = 0
    · exact counted
    · exact absurd ⟨counted, r, hr, rfl⟩ (none r.group)
  · exact counted (own.symm.trans (zero r hr))

end Calls

/-- After any calls the totals are those of the rows added since they were last cleared, in whatever
order: sorting lists the groups of these rows with the sums of each column, or with the numbers of
rows whose bit is set there, which is to say that they are not zero there if the tables have the
bits of their cells. A row is added as long as the table has it in a group that there is; otherwise
nothing changes. Sorting and clearing never fail, and clearing leaves nothing over. -/
theorem calls_aggregate (numGroups numStats : Nat) (binary : Bool) {calls : List TotalsCall}
    (readable : ∀ call ∈ calls, call.Readable numStats) {t : GroupTotals}
    (ht : t = (empty numGroups numStats binary).after calls) {rows : List TableRow}
    (hrows : rows = TotalsCall.kept numGroups calls) :
    t.sort.1 = .ok () ∧ t.sortedStats.1.Pairwise (· < ·) ∧
      (∀ group, group ∈ t.sortedStats.1 ↔ group ≠ 0 ∧ ∃ r ∈ rows, r.group = group) ∧
      t.sortedStats.2 = t.sortedStats.1.flatMap
        (fun group => (List.range numStats).map (aggregate binary rows group)) ∧
      ((∀ call ∈ calls, call.MarksCells) → ∀ group, ∀ col < numStats,
        aggregate true rows group col =
          (rows.countP fun r => r.group = group ∧ r.cell col ≠ 0).toInt64) ∧
      (t.isEmpty = true ↔ ∀ r ∈ rows, r.group = 0) ∧
      (∃ listing, t.clear = (.ok (), { empty numGroups numStats binary with listing := listing })) ∧
      (∀ table element row, table.Total → numStats ≤ table.colCount →
        (∀ r, table.row? row = some r → r.fits numGroups = true →
          (t.addRow table element row).1 = .ok ()) ∧
        (∀ r, table.row? row = some r → r.fits numGroups = false →
          t.addRow table element row =
            (.error ((RowFault.groupRange r.row r.group numGroups).toFault element), t)) ∧
        (table.row? row = none → t.addRow table element row =
          (.error ((RowFault.beyondTable row table.rowCount).toFault element), t))) ∧
      ∀ calls', (∀ call ∈ calls', call.Readable numStats) →
        (TotalsCall.kept numGroups calls').Perm rows →
          ((empty numGroups numStats binary).after calls').sortedStats = t.sortedStats := by
  have total := totalOf_after numGroups numStats binary readable
  rw [← ht, ← hrows] at total
  obtain ⟨sorts, sorted⟩ := total.sortedStats_eq
  obtain ⟨hgroups, hstats, hbinary⟩ : t.numGroups = numGroups ∧ t.numStats = numStats ∧
      t.binary = binary := by
    simpa [GroupTotals.shape] using total.shape
  rw [sorted]
  refine ⟨sorts, pairwise_distinct _, fun group => mem_countedGroups_rows, ?_, fun marks => ?_,
    total.isEmpty_iff, ⟨t.listing, ?_⟩,
    fun table element row htotal wide => ⟨?_, ?_, addRow_outside⟩, ?_⟩
  · refine congrArg List.flatten (List.map_congr_left fun group hg => ?_)
    refine List.map_congr_left fun col hcol => ?_
    exact columnSum_rows (mem_countedGroups_rows.mp hg).1 (List.mem_range.mp hcol)
  · rw [hrows]
    exact fun group col hcol => aggregate_of_marksCells readable marks group hcol
  · rw [clear_eq total.holds.toClearBut, hgroups, hstats, hbinary]
  · intro r hr fits
    obtain ⟨t', hadd, -⟩ := addRow_fit element total.holds hr
      (hstats ▸ htotal.readable wide hr) (hgroups ▸ fits)
    rw [hadd]
  · intro r hr unfit
    rw [addRow_unfit hr (hstats ▸ htotal.readable wide hr) (hgroups ▸ unfit), hgroups]
  · intro calls' readable' perm
    have same := perm.map (·.sample numStats binary)
    rw [(totalOf_after numGroups numStats binary readable').sortedStats_eq.2,
      countedGroups_perm same, columnSums_perm numStats same]

/-- A table with a row that is filtered out and one whose group there is not. -/
def reusedTable : PackedTable :=
  (MemoryTable.ofRows 2
    [(1, [10, 0]), (2, [-20, 2]), (1, [30, 3]), (0, [5, 5]), (3, [7, 7])]).packed

/-- The totals of one term, with rows that are refused, and then those of another. -/
def reusedCalls : List TotalsCall :=
  [.add reusedTable "x" 1, .add reusedTable "x" 4, .sort, .clear, .add reusedTable "x" 2,
    .add reusedTable "x" 5, .sort, .add reusedTable "x" 3, .add reusedTable "x" (-1),
    .add reusedTable "x" 0]

theorem calls_aggregate_reused :
    (∀ call ∈ reusedCalls, call.Readable 2) ∧
      ((empty 3 2 false).after reusedCalls).sort.1 = .ok () ∧
      ((empty 3 2 false).after reusedCalls).sortedStats = ([1], [40, 3]) ∧
      ((empty 3 2 true).after reusedCalls).sortedStats = ([1], [2, 1]) ∧
      ∀ col < 2, aggregate true (TotalsCall.kept 3 reusedCalls) 1 col =
        ((TotalsCall.kept 3 reusedCalls).countP fun r => r.group = 1 ∧ r.cell col ≠ 0).toInt64 := by
  have total : reusedTable.Total := (MemoryTable.filled_ofRows _ _).total
  have readable : ∀ call ∈ reusedCalls, call.Readable 2 := by
    have row : reusedTable.Total ∧ 2 ≤ reusedTable.colCount := ⟨total, Nat.le_refl 2⟩
    simp [reusedCalls, TotalsCall.Readable, row]
  have marks : ∀ call ∈ reusedCalls, call.MarksCells := by
    have row : reusedTable.BitsMarkCells := MemoryTable.bitsMarkCells _
    simp [reusedCalls, TotalsCall.MarksCells, row]
  obtain ⟨sorts, -, -, sums, -⟩ := calls_aggregate 3 2 false readable rfl rfl
  obtain ⟨-, -, -, counts, cells, -⟩ := calls_aggregate 3 2 true readable rfl rfl
  have groups (binary : Bool) :
      ((empty 3 2 binary).after reusedCalls).sortedStats.1 = [1] := by
    cases binary <;> decide +kernel
  refine ⟨readable, sorts, Prod.ext (groups false) ?_, Prod.ext (groups true) ?_, cells marks 1⟩
  · rw [sums, groups false]
    decide +kernel
  · rw [counts, groups true]
    decide +kernel

end GroupTotals
end TermStats
