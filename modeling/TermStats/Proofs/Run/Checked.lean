import Mathlib.Algebra.Group.Int.Defs
import Mathlib.Algebra.GroupWithZero.Nat
import TermStats.Proofs.Shard.Opened
import TermStats.Run.Context

/-!
What a context guarantees once it is made: its settings are in range, there is one socket for each
stream, and every shard holds every field in its kind, with a table as wide as the stats ask for.
-/

namespace TermStats

open Result

theorem requireArgument_eq_ok {holds : Bool} {name condition : String} :
    requireArgument holds name condition = .ok () ↔ holds = true := by
  cases holds <;> simp [requireArgument]

/-- What is checked before a context is made. -/
structure Settings.Valid (s : Settings) : Prop where
  dirs : s.shardDirs ≠ []
  splits : 0 < s.numSplits
  workers : 0 < s.numWorkers
  groups : 0 < s.numGroups
  groupsFit : s.numGroups < UInt32.size
  cells : s.numGroups * max s.numStats 1 ≤ Settings.maxCells
  buffer : 0 < s.writerBufferSize

theorem Settings.valid_of_validate {s : Settings} (h : s.validate = .ok ()) : s.Valid := by
  simp only [validate, bind_eq_ok] at h
  obtain ⟨⟨⟩, hdirs, ⟨⟩, hsplits, ⟨⟩, hworkers, ⟨⟩, hgroups, ⟨⟩, hfit, ⟨⟩, hcells, ⟨⟩, hbuffer,
    _⟩ := h
  rw [requireArgument_eq_ok] at hdirs hsplits hworkers hgroups hfit hcells hbuffer
  refine ⟨?_, of_decide_eq_true hsplits, of_decide_eq_true hworkers, of_decide_eq_true hgroups,
    of_decide_eq_true hfit, of_decide_eq_true hcells, of_decide_eq_true hbuffer⟩
  intro hnil
  rw [hnil] at hdirs
  cases hdirs

/-- A context as its inputs make it. -/
structure RunContext.Checked (c : RunContext) : Prop where
  valid : c.settings.Valid
  shardCount : c.shards.length = c.settings.shardDirs.length
  sockets : c.sockets.length = c.settings.numStreams
  columns : ∀ shard ∈ c.shards, c.settings.numStats ≤ shard.table.colCount
  fields : ∀ shard ∈ c.shards, ∀ field ∈ c.settings.fields,
    ∃ files, shard.field field.1 = .ok files ∧ files.kind = field.2

namespace RunContext

theorem checkColumns_ok {s : Settings} {inputs : List (Path × PackedTable)}
    (h : checkColumns s inputs = .ok ()) : ∀ input ∈ inputs, s.numStats ≤ input.2.colCount := by
  induction inputs with
  | nil => exact nofun
  | cons input rest ih =>
      obtain ⟨dir, table⟩ := input
      simp only [checkColumns] at h
      split at h
      · cases h
      · rename_i hwide
        exact List.forall_mem_cons.mpr ⟨Nat.le_of_not_lt hwide, ih h⟩

/-- How the first shard is opened, and the others over the cache that it leaves. -/
theorem openShards_cons {s : Settings} {files : FileTree} {cache cache' : MapCache} {dir : Path}
    {table : PackedTable} {rest : List (Path × PackedTable)} {shards : List Shard}
    (h : openShards s files cache ((dir, table) :: rest) = (.ok shards, cache')) :
    ∃ shard more cache₁,
      Shard.openIn files cache dir s.intFields s.stringFields table = (.ok shard, cache₁) ∧
      openShards s files cache₁ rest = (.ok more, cache') ∧ shards = shard :: more := by
  simp only [openShards] at h
  split at h
  · cases h
  · rename_i shard cache₁ hopen
    cases hr : openShards s files cache₁ rest with
    | mk x cache₂ =>
        rw [hr] at h
        cases x with
        | error e => cases h
        | ok more =>
            cases h
            exact ⟨shard, more, cache₁, hopen, hr, rfl⟩

theorem openShards_ok {s : Settings} {files : FileTree} {cache cache' : MapCache}
    {inputs : List (Path × PackedTable)} {shards : List Shard}
    (h : openShards s files cache inputs = (.ok shards, cache')) :
    shards.length = inputs.length ∧ ∀ shard ∈ shards, ∃ input ∈ inputs,
      shard.table = input.2 ∧ ∀ field ∈ s.fields,
        ∃ found, shard.field field.1 = .ok found ∧ found.kind = field.2 := by
  induction inputs generalizing cache shards with
  | nil =>
      cases h
      exact ⟨rfl, nofun⟩
  | cons input rest ih =>
      obtain ⟨shard, more, cache₁, hopen, hr, rfl⟩ := openShards_cons h
      obtain ⟨hlen, hmore⟩ := ih hr
      refine ⟨congrArg (· + 1) hlen, List.forall_mem_cons.mpr ⟨?_, fun shard hs => ?_⟩⟩
      · exact ⟨input, List.mem_cons_self, Shard.field_of_openIn hopen⟩
      · obtain ⟨input, hi, hshard⟩ := hmore shard hs
        exact ⟨input, List.mem_cons_of_mem _ hi, hshard⟩

theorem check_ok {s : Settings} {tables : List PackedTable} {sockets : List Socket}
    (h : check s tables sockets = .ok ()) :
    s.Valid ∧ tables.length = s.shardDirs.length ∧ sockets.length = s.numStreams ∧
      ∀ input ∈ s.shardDirs.zip tables, s.numStats ≤ input.2.colCount := by
  simp only [check, bind_eq_ok] at h
  obtain ⟨_, hvalid, h⟩ := h
  split at h
  · exact absurd h throw_ne_ok
  · rename_i htables
    split at h
    · exact absurd h throw_ne_ok
    · rename_i hsockets
      exact ⟨Settings.valid_of_validate hvalid, Classical.not_not.mp htables,
        Classical.not_not.mp hsockets, checkColumns_ok h⟩

/-- How a context is made: its inputs pass the check, and its shards can be opened. -/
theorem ofInputs_ok {s : Settings} {tables : List PackedTable} {sockets : List Socket}
    {files : FileTree} {cache cache' : MapCache} {c : RunContext}
    (h : ofInputs s tables sockets files cache = (.ok c, cache')) :
    check s tables sockets = .ok () ∧ c.settings = s ∧ c.sockets = sockets ∧
      openShards s files cache (s.shardDirs.zip tables) = (.ok c.shards, cache') := by
  simp only [ofInputs] at h
  split at h
  · cases h
  · rename_i hcheck
    cases ho : openShards s files cache (s.shardDirs.zip tables) with
    | mk x cache₁ =>
        rw [ho] at h
        cases x with
        | error e => cases h
        | ok shards =>
            cases h
            exact ⟨hcheck, rfl, rfl, rfl⟩

theorem checked_of_ofInputs {s : Settings} {tables : List PackedTable} {sockets : List Socket}
    {files : FileTree} {cache cache' : MapCache} {c : RunContext}
    (h : ofInputs s tables sockets files cache = (.ok c, cache')) :
    c.settings = s ∧ c.sockets = sockets ∧ c.Checked := by
  obtain ⟨hcheck, rfl, rfl, hopen⟩ := ofInputs_ok h
  obtain ⟨valid, htables, hsockets, hcolumns⟩ := check_ok hcheck
  obtain ⟨hlen, hshards⟩ := openShards_ok hopen
  refine ⟨rfl, rfl, valid, ?_, hsockets, ?_, ?_⟩
  · rw [hlen, List.length_zip, htables, Nat.min_self]
  · intro shard hs
    obtain ⟨input, hi, htable, _⟩ := hshards shard hs
    exact htable ▸ hcolumns input hi
  · intro shard hs
    obtain ⟨_, _, _, hfields⟩ := hshards shard hs
    exact hfields

/-- The tables of the shards are those that were given. -/
theorem table_of_ofInputs {s : Settings} {tables : List PackedTable} {sockets : List Socket}
    {files : FileTree} {cache cache' : MapCache} {c : RunContext}
    (h : ofInputs s tables sockets files cache = (.ok c, cache')) :
    ∀ shard ∈ c.shards, shard.table ∈ tables := by
  obtain ⟨_, _, _, hopen⟩ := ofInputs_ok h
  obtain ⟨_, opened⟩ := openShards_ok hopen
  intro shard hs
  obtain ⟨input, hi, htable, _⟩ := opened shard hs
  exact htable ▸ (List.of_mem_zip hi).2

section Views

variable {s : Settings} {files : FileTree} {cache cache' : MapCache} {name : String}
  {kind : TermKind} {held : Path → Bytes × Bytes}

end Views

theorem made_of_isOk {x : Except Error RunContext × MapCache} (h : x.1.isOk = true) :
    x = (.ok (x.1.toOption.getD default), x.2) := by
  obtain ⟨x, cache⟩ := x
  cases x with
  | ok c => rfl
  | error e => cases h

end RunContext
end TermStats
