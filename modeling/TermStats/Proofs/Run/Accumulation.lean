import TermStats.Proofs.Attempt
import TermStats.Proofs.Run.Totals

/-!
The totals hold the sums of the samples added since they were last cleared. The groups share one
array, and only those that were touched may have stats or a flag; so setting these back clears all.
-/

namespace TermStats

open Result

namespace GroupTotals

/-- How many groups and stats there are, and whether the stats count rows. -/
def shape (t : GroupTotals) : Nat × Nat × Bool :=
  (t.numGroups, t.numStats, t.binary)

/-- The stat of a group in a column. -/
def stat (t : GroupTotals) (group col : Nat) : Option Int64 :=
  t.sums[group * t.numStats + col]?

/-- There is room for all groups, and none but the given ones has stats or a flag. -/
structure ClearBut (t : GroupTotals) (groups : List UInt32) : Prop where
  room : t.sums.size = t.numGroups * t.numStats
  flagRoom : t.seen.size = t.numGroups
  inRange : ∀ g ∈ groups, g.toNat < t.numGroups
  unflagged : ∀ i < t.numGroups, (∀ g ∈ groups, g.toNat ≠ i) → t.seen[i]? = some false
  zero : ∀ i < t.numGroups, (∀ g ∈ groups, g.toNat ≠ i) → ∀ col < t.numStats, t.stat i col = some 0

/-- The totals are those of the samples. -/
structure Holds (t : GroupTotals) (samples : List Sample) : Prop extends ClearBut t t.touched where
  once : t.touched.Nodup
  counted : ∀ g, g ∈ t.touched ↔ g ∈ countedGroups samples
  flagged : ∀ g ∈ t.touched, t.seen[g.toNat]? = some true
  sum : ∀ g ∈ t.touched, ∀ col < t.numStats, t.stat g.toNat col = some (columnSum samples g col)

theorem stat_empty {numGroups numStats i col : Nat} (binary : Bool) (hi : i < numGroups)
    (hcol : col < numStats) : (empty numGroups numStats binary).stat i col = some 0 := by
  have place := Nat.lt_of_lt_of_le (Nat.add_lt_add_left hcol _) (block_end_le hi)
  simp [stat, empty, place]

/-- Totals without samples, whatever they listed last. -/
theorem holds_empty (numGroups numStats : Nat) (binary : Bool) (listing : List Int64) :
    { empty numGroups numStats binary with listing := listing }.Holds [] where
  room := Array.size_replicate
  flagRoom := Array.size_replicate
  inRange := nofun
  unflagged i hi _ := by
    have hi : i < numGroups := hi
    simp [empty, hi]
  zero i hi _ col hcol := stat_empty binary hi hcol
  once := List.nodup_nil
  counted g := Iff.rfl
  flagged := nofun
  sum := nofun

variable {t t' : GroupTotals} {samples : List Sample} {group : UInt32}

theorem start_eq (room : t.sums.size = t.numGroups * t.numStats)
    (inRange : group.toNat < t.numGroups) : t.start group = .ok (group.toNat * t.numStats) := by
  have fits : (group.toNat + 1) * t.numStats ≤ t.sums.size := by
    rw [room]
    exact Nat.mul_le_mul_right _ inRange
  simp only [start, if_pos fits]

section AddRow

/-- The value of a cell, or the panic of the table. -/
def cellValue (binary : Bool) (table : PackedTable) (row col : Nat) : Except Fault Int64 :=
  (contribution binary table row col).mapError .panic

/-- The sample of a row, or what adding it fails with. -/
def rowSample (numGroups numStats : Nat) (binary : Bool) (table : PackedTable) (element : String)
    (row : Int64) : Except Fault Sample :=
  match groupOf numGroups table element row with
  | .error f => .error f
  | .ok group =>
      if group = 0 then .ok (0, [])
      else ((List.range numStats).mapM (cellValue binary table row.toInt.toNat)).map (group, ·)

theorem cellValue_eq_ok {binary : Bool} {table : PackedTable} {row col : Nat} {v : Int64} :
    cellValue binary table row col = .ok v ↔ readValue binary table row col = some v := by
  rw [cellValue, mapError_eq_ok]
  cases binary with
  | false =>
      change table.cell row col = .ok v ↔ (table.cell row col).toOption = some v
      cases table.cell row col <;> simp [Except.toOption]
  | true =>
      simp only [contribution, readValue, if_true]
      cases table.bit row col <;> simp [Except.map, Except.toOption]

theorem rowSample_eq_ok {numGroups numStats : Nat} {binary : Bool} {table : PackedTable}
    {element : String} {row : Int64} {s : Sample} :
    rowSample numGroups numStats binary table element row = .ok s ↔
      readRow numGroups numStats binary table row = some s := by
  have values (row : Nat) (vs : List Int64) : (List.range numStats).mapM
      (cellValue binary table row) = .ok vs ↔
        (List.range numStats).mapM (readValue binary table row) = some vs :=
    mapM_eq_ok_iff fun _ _ => cellValue_eq_ok
  simp only [rowSample, groupOf, readRow]
  by_cases hrow : row < 0 ∨ table.rowCount ≤ row.toInt.toNat
  · rw [if_pos hrow, if_pos hrow]
    exact ⟨nofun, nofun⟩
  · rw [if_neg hrow, if_neg hrow]
    cases table.group row.toInt.toNat with
    | error p => exact ⟨nofun, nofun⟩
    | ok group =>
        by_cases counted : group = 0
        · simp [counted, Except.toOption]
        · by_cases beyond : numGroups ≤ group.toNat
          · simp [counted, beyond, Except.toOption]
          · simp only [Except.toOption, Option.bind_some, ne_eq, counted, not_false_eq_true,
              beyond, and_false, if_false, Option.map_eq_some_iff, ← values]
            cases (List.range numStats).mapM (cellValue binary table row.toInt.toNat) <;>
              simp [Except.map]

theorem groupOf_lt {numGroups : Nat} {table : PackedTable} {element : String} {row : Int64}
    (h : groupOf numGroups table element row = .ok group) (counted : group ≠ 0) :
    group.toNat < numGroups := by
  simp only [groupOf] at h
  split at h
  · cases h
  · split at h
    · cases h
    · split at h
      · cases h
      · rename_i inRange
        cases h
        exact Nat.lt_of_not_le fun beyond => inRange ⟨counted, beyond⟩

theorem touch_eq (h : t.Holds samples) (inRange : group.toNat < t.numGroups) :
    t.touch group = (.ok (), { t with
      seen := t.seen.setIfInBounds group.toNat true
      touched := if group ∈ t.touched then t.touched else t.touched ++ [group] }) := by
  by_cases known : group ∈ t.touched
  · have flagged := h.flagged group known
    have kept : t.seen.setIfInBounds group.toNat true = t.seen := by
      refine Array.ext_getElem? fun i => ?_
      by_cases hi : group.toNat = i
      · subst hi
        rw [Array.getElem?_setIfInBounds_self_of_lt (h.flagRoom ▸ inRange), flagged]
      · rw [Array.getElem?_setIfInBounds_ne hi]
    simp only [touch, flagged, if_pos known, kept]
  · have unflagged := h.unflagged group.toNat inRange fun g hg same =>
      known (UInt32.toNat_inj.mp same ▸ hg)
    simp only [touch, unflagged, if_neg known]

/-- The sums after values were added to the first columns of a group. -/
structure AddedTo (t : GroupTotals) (group : UInt32) (values : List Int64) (sums : Array Int64) :
    Prop where
  room : sums.size = t.sums.size
  stat : ∀ i, ∀ col < t.numStats, { t with sums := sums }.stat i col =
    (t.stat i col).map (· + if i = group.toNat then values.getD col 0 else 0)

theorem addedTo_nil (t : GroupTotals) (group : UInt32) : AddedTo t group [] t.sums :=
  ⟨rfl, fun i col _ => by simp⟩

theorem AddedTo.concat {values : List Int64} {sums : Array Int64}
    (added : AddedTo t group values sums) (inRow : values.length < t.numStats) (v : Int64) :
    AddedTo t group (values ++ [v])
      (sums.modify (group.toNat * t.numStats + values.length) (· + v)) := by
  refine ⟨by rw [Array.size_modify, added.room], fun i col hcol => ?_⟩
  have before := added.stat i col hcol
  simp only [GroupTotals.stat, Array.getElem?_modify] at before ⊢
  rw [before]
  by_cases place : group.toNat * t.numStats + values.length = i * t.numStats + col
  · obtain ⟨rfl, rfl⟩ := blocks_inj inRow hcol place
    simp
  · have elsewhere (hi : i = group.toNat) : col ≠ values.length := by
      rintro rfl
      exact place (hi ▸ rfl)
    have kept (hi : i = group.toNat) : (values ++ [v]).getD col 0 = values.getD col 0 := by
      have := elsewhere hi
      grind
    rw [if_neg place]
    by_cases hi : i = group.toNat
    · rw [if_pos hi, if_pos hi, kept hi]
    · rw [if_neg hi, if_neg hi]

theorem addCells_yields (table : PackedTable) (row : Nat)
    (room : t.sums.size = t.numGroups * t.numStats) (inRange : group.toNat < t.numGroups) :
    Attempt.Yields
      (fun t' values => ∃ sums, t' = { t with sums := sums } ∧ AddedTo t group values sums)
      (t.addCells table row group)
      ((List.range t.numStats).mapM (cellValue t.binary table row)) := by
  rw [addCells, start_eq room inRange]
  refine Attempt.each_yields (fun s values col hcol holds => ?_) ⟨_, rfl, addedTo_nil t group⟩
  obtain ⟨sums, rfl, added⟩ := holds
  obtain ⟨inRow, rfl⟩ : values.length < t.numStats ∧ values.length = col := by
    simpa [List.getElem?_eq_some_iff] using hcol
  simp only [addCell, cellValue]
  cases contribution t.binary table row values.length with
  | error p => rfl
  | ok v => exact ⟨_, rfl, _, rfl, added.concat inRow v⟩

theorem mem_touched_insert {touched : List UInt32} {g : UInt32} :
    g ∈ (if group ∈ touched then touched else touched ++ [group]) ↔ g ∈ touched ∨ g = group := by
  split
  · rename_i known
    refine ⟨.inl, ?_⟩
    rintro (hg | rfl)
    · exact hg
    · exact known
  · simp

/-- The stats of every group are its sums, also where it has no samples. -/
theorem Holds.stat_eq (h : t.Holds samples) (counted : group ≠ 0)
    (inRange : group.toNat < t.numGroups) {col : Nat} (hcol : col < t.numStats) :
    t.stat group.toNat col = some (columnSum samples group col) := by
  by_cases known : group ∈ t.touched
  · exact h.sum group known col hcol
  · have apart : ∀ g ∈ t.touched, g.toNat ≠ group.toNat := fun g hg same =>
      known (UInt32.toNat_inj.mp same ▸ hg)
    have without : ∀ s ∈ samples, s.1 ≠ group := fun s hs same =>
      known ((h.counted group).mpr (mem_countedGroups.mpr ⟨counted, s, hs, same⟩))
    rw [h.zero _ inRange apart col hcol, columnSum_of_not_mem col without]

/-- The totals after a row of a counted group. -/
theorem holds_add (h : t.Holds samples) (counted : group ≠ 0) (inRange : group.toNat < t.numGroups)
    {values : List Int64} {sums : Array Int64} (added : AddedTo t group values sums) :
    { t with
      sums := sums
      seen := t.seen.setIfInBounds group.toNat true
      touched := if group ∈ t.touched then t.touched else t.touched ++ [group] }.Holds
        (samples ++ [(group, values)]) where
  room := added.room.trans h.room
  flagRoom := (Array.size_setIfInBounds ..).trans h.flagRoom
  inRange g hg := by
    rcases mem_touched_insert.mp hg with hg | rfl
    · exact h.inRange g hg
    · exact inRange
  unflagged i hi others := by
    have hne : group.toNat ≠ i := others group (mem_touched_insert.mpr (.inr rfl))
    rw [Array.getElem?_setIfInBounds_ne hne]
    exact h.unflagged i hi fun g hg => others g (mem_touched_insert.mpr (.inl hg))
  zero i hi others col hcol := by
    have hne : group.toNat ≠ i := others group (mem_touched_insert.mpr (.inr rfl))
    have before := h.zero i hi (fun g hg => others g (mem_touched_insert.mpr (.inl hg))) col hcol
    refine (added.stat i col hcol).trans ?_
    rw [before, if_neg (Ne.symm hne)]
    rfl
  once := by
    dsimp only
    split
    · exact h.once
    · rename_i new
      refine List.nodup_append.mpr ⟨h.once, List.pairwise_singleton _ _, ?_⟩
      rintro g hg b hb rfl
      exact new (List.mem_singleton.mp hb ▸ hg)
  counted g := by
    rw [mem_touched_insert, h.counted, mem_countedGroups_concat]
    simp [counted]
  flagged g hg := by
    by_cases same : group.toNat = g.toNat
    · rw [← same]
      exact Array.getElem?_setIfInBounds_self_of_lt (h.flagRoom ▸ inRange)
    · rw [Array.getElem?_setIfInBounds_ne same]
      rcases mem_touched_insert.mp hg with hg | rfl
      · exact h.flagged g hg
      · exact absurd rfl same
  sum g hg col hcol := by
    have known : g ≠ 0 ∧ g.toNat < t.numGroups := by
      rcases mem_touched_insert.mp hg with hg | rfl
      · exact ⟨(mem_countedGroups.mp ((h.counted g).mp hg)).1, h.inRange g hg⟩
      · exact ⟨counted, inRange⟩
    refine (added.stat g.toNat col hcol).trans ?_
    rw [h.stat_eq known.1 known.2 hcol, columnSum_concat]
    simp [UInt32.toNat_inj, eq_comm]

theorem Holds.uncounted (h : t.Holds samples) (values : List Int64) :
    t.Holds (samples ++ [(0, values)]) where
  toClearBut := h.toClearBut
  once := h.once
  counted g := by
    rw [h.counted, mem_countedGroups_concat]
    simp
  flagged := h.flagged
  sum g hg col hcol := by
    have counted : g ≠ 0 := (mem_countedGroups.mp ((h.counted g).mp hg)).1
    rw [h.sum g hg col hcol, columnSum_concat, if_neg (Ne.symm counted), Int64.add_zero]

/-- Adding a row adds its sample, or fails as reading it does. -/
theorem addRow_yields (h : t.Holds samples) (table : PackedTable) (element : String) (row : Int64) :
    Attempt.Yields (fun t' s => t'.Holds (samples ++ [s]) ∧ t'.shape = t.shape)
      (t.addRow table element row)
      (rowSample t.numGroups t.numStats t.binary table element row) := by
  rw [addRow, rowSample]
  cases hgroup : groupOf t.numGroups table element row with
  | error f => rfl
  | ok group =>
      by_cases counted : group = 0
      · subst counted
        exact ⟨t, rfl, h.uncounted [], rfl⟩
      · have inRange := groupOf_lt hgroup counted
        simp only [if_neg counted, touch_eq h inRange, Attempt.andThen_ok]
        have cells := addCells_yields (t := { t with
          seen := t.seen.setIfInBounds group.toNat true
          touched := if group ∈ t.touched then t.touched else t.touched ++ [group] })
          table row.toInt.toNat h.room inRange
        dsimp only at cells
        cases hvalues : (List.range t.numStats).mapM (cellValue t.binary table row.toInt.toNat) with
        | error p =>
            rw [hvalues] at cells
            exact cells
        | ok values =>
            rw [hvalues] at cells
            obtain ⟨_, ht, sums, rfl, added⟩ := cells
            exact ⟨_, ht, holds_add h counted inRange ⟨added.room, added.stat⟩, rfl⟩

end AddRow

section Sorted

/-- In ascending order the touched groups are those of the samples. -/
theorem Holds.sorted_touched (h : t.Holds samples) :
    t.touched.mergeSort = countedGroups samples := by
  have perm := List.mergeSort_perm t.touched fun a b => decide (a ≤ b)
  have sorted : (t.touched.mergeSort fun a b => decide (a ≤ b)).Pairwise
      fun a b => decide (a ≤ b) = true :=
    List.pairwise_mergeSort (fun a b c => by simpa using Std.le_trans)
      (fun a b => by simpa using Std.le_total) t.touched
  have once : (t.touched.mergeSort fun a b => decide (a ≤ b)).Nodup := perm.nodup_iff.mpr h.once
  refine eq_of_ascending_of_mem_iff ((sorted.and once).imp ?_) (pairwise_distinct _) fun g =>
    perm.mem_iff.trans (h.counted g)
  rintro a b ⟨hle, hne⟩
  exact Std.lt_of_le_of_ne (of_decide_eq_true hle) hne

theorem statsOf_eq (h : t.Holds samples) (known : group ∈ t.touched) :
    t.statsOf group = .ok (columnSums t.numStats samples group) := by
  have inRange := h.inRange group known
  have fits : group.toNat * t.numStats + t.numStats ≤ t.sums.size := by
    rw [h.room]
    exact block_end_le inRange
  rw [statsOf, start_eq h.room inRange]
  refine congrArg Except.ok (List.ext_getElem? fun col => ?_)
  rw [columnSums_eq, Array.getElem?_toList, Array.getElem?_extract, Nat.min_eq_left fits,
    Nat.add_sub_cancel_left, List.getElem?_map]
  by_cases hcol : col < t.numStats
  · have sum : t.sums[group.toNat * t.numStats + col]? = some (columnSum samples group col) :=
      h.sum group known col hcol
    rw [if_pos hcol, sum]
    simp [hcol]
  · rw [if_neg hcol]
    simp [hcol]

/-- The touched groups with their sums, in ascending order. -/
def sorted (t : GroupTotals) (samples : List Sample) : GroupTotals :=
  { t with
    touched := countedGroups samples
    listing := (countedGroups samples).flatMap (columnSums t.numStats samples) }

theorem sort_eq (h : t.Holds samples) : t.sort = (.ok (), t.sorted samples) := by
  have stats : (countedGroups samples).mapM t.statsOf =
      .ok ((countedGroups samples).map (columnSums t.numStats samples)) :=
    mapM_eq_ok_map fun g hg => statsOf_eq h ((h.counted g).mpr hg)
  simp only [sort, h.sorted_touched, stats]
  rfl

theorem holds_sorted (h : t.Holds samples) : (t.sorted samples).Holds samples where
  room := h.room
  flagRoom := h.flagRoom
  inRange g hg := h.inRange g ((h.counted g).mpr hg)
  unflagged i hi others := h.unflagged i hi fun g hg => others g ((h.counted g).mp hg)
  zero i hi others := h.zero i hi fun g hg => others g ((h.counted g).mp hg)
  once := (pairwise_distinct _).imp Std.ne_of_lt
  counted _ := Iff.rfl
  flagged g hg := h.flagged g ((h.counted g).mpr hg)
  sum g hg := h.sum g ((h.counted g).mpr hg)

end Sorted

section Clear

theorem zeroed_succ (sums : Array Int64) (start count : Nat) :
    zeroed sums start (count + 1) = (zeroed sums start count).setIfInBounds (start + count) 0 := by
  simp [zeroed, List.range_succ]

theorem size_zeroed (sums : Array Int64) (start count : Nat) :
    (zeroed sums start count).size = sums.size := by
  induction count with
  | zero => rfl
  | succ count ih => rw [zeroed_succ, Array.size_setIfInBounds, ih]

theorem getElem?_zeroed (sums : Array Int64) (start count j : Nat) :
    (zeroed sums start count)[j]? =
      sums[j]?.map fun v => if start ≤ j ∧ j < start + count then 0 else v := by
  induction count with
  | zero =>
      have outside : ¬ (start ≤ j ∧ j < start + 0) := by omega
      simp only [if_neg outside, Option.map_id']
      rfl
  | succ count ih =>
      rw [zeroed_succ, Array.getElem?_setIfInBounds, size_zeroed]
      by_cases hj : start + count = j
      · have inside : start ≤ j ∧ j < start + (count + 1) := by omega
        simp only [if_pos hj, if_pos inside]
        by_cases fits : j < sums.size
        · rw [if_pos (hj ▸ fits), Array.getElem?_eq_getElem fits, Option.map_some]
        · rw [if_neg (hj ▸ fits), Array.getElem?_eq_none (Nat.le_of_not_lt fits), Option.map_none]
      · have same : (start ≤ j ∧ j < start + count) ↔ start ≤ j ∧ j < start + (count + 1) := by
          omega
        rw [if_neg hj, ih]
        simp only [same]

/-- After a group is set back, one group less can have stats or a flag. -/
theorem reset_eq {groups : List UInt32} (h : t.ClearBut (group :: groups)) :
    ∃ sums seen, t.reset group = (.ok (), { t with sums := sums, seen := seen }) ∧
      { t with sums := sums, seen := seen }.ClearBut groups := by
  have inRange := h.inRange group List.mem_cons_self
  have flag : group.toNat < t.seen.size := h.flagRoom ▸ inRange
  have others {i : Nat} (hi : group.toNat ≠ i) (rest : ∀ g ∈ groups, g.toNat ≠ i) :
      ∀ g ∈ group :: groups, g.toNat ≠ i := List.forall_mem_cons.mpr ⟨hi, rest⟩
  refine ⟨zeroed t.sums (group.toNat * t.numStats) t.numStats,
    t.seen.setIfInBounds group.toNat false, ?_, ?_⟩
  · simp only [reset, start_eq h.room inRange, if_pos flag]
  · refine ⟨?_, ?_, ?_, ?_, ?_⟩
    · exact (size_zeroed ..).trans h.room
    · exact (Array.size_setIfInBounds ..).trans h.flagRoom
    · exact fun g hg => h.inRange g (List.mem_cons_of_mem _ hg)
    · intro i hi rest
      by_cases same : group.toNat = i
      · subst same
        exact Array.getElem?_setIfInBounds_self_of_lt flag
      · exact (Array.getElem?_setIfInBounds_ne same).trans (h.unflagged i hi (others same rest))
    · intro i hi rest col hcol
      refine (getElem?_zeroed ..).trans ?_
      by_cases same : group.toNat = i
      · subst same
        have inside : group.toNat * t.numStats ≤ group.toNat * t.numStats + col ∧
            group.toNat * t.numStats + col < group.toNat * t.numStats + t.numStats :=
          ⟨Nat.le_add_right _ _, Nat.add_lt_add_left hcol _⟩
        have place : group.toNat * t.numStats + col < t.sums.size := by
          rw [h.room]
          exact Nat.lt_of_lt_of_le inside.2 (block_end_le hi)
        rw [Array.getElem?_eq_getElem place, Option.map_some, if_pos inside]
      · have zero : t.sums[i * t.numStats + col]? = some 0 :=
          h.zero i hi (others same rest) col hcol
        rw [zero]
        exact congrArg some (ite_self 0)

theorem each_reset_eq {groups : List UInt32} (h : t.ClearBut groups) :
    ∃ sums seen, Attempt.each reset t groups = (.ok (), { t with sums := sums, seen := seen }) ∧
      { t with sums := sums, seen := seen }.ClearBut [] := by
  induction groups generalizing t with
  | nil => exact ⟨t.sums, t.seen, rfl, h⟩
  | cons group rest ih =>
      obtain ⟨sums, seen, hreset, after⟩ := reset_eq h
      obtain ⟨sums', seen', hrest, done⟩ := ih after
      refine ⟨sums', seen', ?_, done⟩
      rw [Attempt.each, hreset, Attempt.andThen_ok, hrest]

theorem ClearBut.sums_eq (h : t.ClearBut []) :
    t.sums = Array.replicate (t.numGroups * t.numStats) 0 := by
  refine Array.ext_getElem? fun j => ?_
  rw [Array.getElem?_replicate]
  by_cases hj : j < t.numGroups * t.numStats
  · have pos : 0 < t.numStats := Nat.pos_of_lt_mul_left hj
    have zero := h.zero (j / t.numStats) (Nat.div_lt_of_lt_mul (Nat.mul_comm .. ▸ hj)) nofun
      (j % t.numStats) (Nat.mod_lt _ pos)
    rw [stat, Nat.div_add_mod'] at zero
    rw [if_pos hj, zero]
  · rw [if_neg hj, Array.getElem?_eq_none (h.room ▸ Nat.le_of_not_lt hj)]

theorem ClearBut.seen_eq (h : t.ClearBut []) : t.seen = Array.replicate t.numGroups false := by
  refine Array.ext_getElem? fun i => ?_
  rw [Array.getElem?_replicate]
  by_cases hi : i < t.numGroups
  · rw [if_pos hi, h.unflagged i hi nofun]
  · rw [if_neg hi, Array.getElem?_eq_none (h.flagRoom ▸ Nat.le_of_not_lt hi)]

/-- Clearing makes the totals as they were at the start. -/
theorem clear_eq (h : t.ClearBut t.touched) :
    t.clear = (.ok (), { empty t.numGroups t.numStats t.binary with listing := t.listing }) := by
  obtain ⟨sums, seen, hreset, done⟩ := each_reset_eq h
  have hsums := done.sums_eq
  have hseen := done.seen_eq
  dsimp only at hsums hseen
  rw [clear, hreset, Attempt.andThen_ok, hsums, hseen]
  rfl

end Clear

end GroupTotals
end TermStats
