import TermStats.Run.Settings
import TermStats.Output.Socket

/-!
The inputs of a run, checked and opened: the settings, one shard for each directory,
one socket for each output stream.
-/

namespace TermStats

structure RunContext where
  settings : Settings
  shards : List Shard
  sockets : List Socket
  deriving Inhabited

namespace RunContext

inductive InputFault where
  | tableCount (tables shards : Nat)
  | socketCount (sockets fields splits : Nat)
  | fewColumns (directory : Path) (columns stats : Nat)
  deriving Repr, DecidableEq, Inhabited

def InputFault.toError : InputFault → Error
  | tableCount tables shards =>
      .invalidArgument "tables" s!"{tables} tables for {shards} shards"
  | socketCount sockets fields splits =>
      .invalidArgument "sockets" s!"{sockets} sockets for {fields} fields x {splits} splits"
  | fewColumns directory columns stats =>
      .invalidArgument "tables"
        s!"table of shard {directory} has {columns} columns, {stats} stats requested"

/-- Opens one shard after another with a shared cache, up to the first that fails. -/
def openShards (s : Settings) (files : FileTree) (cache : MapCache) :
    List (Path × PackedTable) → Except Error (List Shard) × MapCache
  | [] => (.ok [], cache)
  | (dir, table) :: rest =>
      match Shard.openIn files cache dir s.intFields s.stringFields table with
      | (.error e, cache) => (.error e, cache)
      | (.ok shard, cache) =>
          let (x, cache) := openShards s files cache rest
          (x.map (shard :: ·), cache)

/-- Every table has the columns that the stats are taken from. -/
def checkColumns (s : Settings) : List (Path × PackedTable) → Except Error Unit
  | [] => .ok ()
  | (dir, table) :: rest =>
      if table.colCount < s.numStats then
        .error (InputFault.fewColumns dir table.colCount s.numStats).toError
      else checkColumns s rest

def check (s : Settings) (tables : List PackedTable) (sockets : List Socket) :
    Except Error Unit := do
  s.validate
  if tables.length ≠ s.shardDirs.length then
    throw (InputFault.tableCount tables.length s.shardDirs.length).toError
  if sockets.length ≠ s.numStreams then
    throw (InputFault.socketCount sockets.length s.numFields s.numSplits).toError
  checkColumns s (s.shardDirs.zip tables)

/-- The context of a run over `tables`, one for each shard, and `sockets`, one for each stream. The
files are mapped through `cache`, which keeps what was mapped even when a later step fails. -/
def ofInputs (s : Settings) (tables : List PackedTable) (sockets : List Socket)
    (files : FileTree) (cache : MapCache) : Except Error RunContext × MapCache :=
  match check s tables sockets with
  | .error e => (.error e, cache)
  | .ok _ =>
      let (x, cache) := openShards s files cache (s.shardDirs.zip tables)
      (x.map fun shards => ⟨s, shards, sockets⟩, cache)

end RunContext
end TermStats
