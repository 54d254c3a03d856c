import TermStats.Term.Partition
import TermStats.Shard.Basic

/-!
The settings of a run, and what they must satisfy before anything is opened. The output
streams are numbered field by field, with the splits of a field next to each other.
-/

namespace TermStats

inductive PartitionRule where
  | hash
  | modulo
  deriving Repr, DecidableEq, Inhabited

namespace PartitionRule

def name : PartitionRule → String
  | hash => "hash"
  | modulo => "modulo"

def ofName? (s : String) : Option PartitionRule :=
  if s = "hash" then some hash
  else if s = "modulo" then some modulo
  else none

def partitioner : PartitionRule → Partitioner
  | hash => .hashing 0
  | modulo => .modulo

end PartitionRule

structure Settings where
  shardDirs : List Path
  intFields : List String
  stringFields : List String
  /-- Has no effect on a run. -/
  splitsDir : Option Path
  numGroups : Nat
  numStats : Nat
  numSplits : Nat
  numWorkers : Nat
  binaryMetrics : Bool
  partitionRule : PartitionRule
  writerBufferSize : Nat
  deriving Repr, DecidableEq

namespace Settings

def defaultBufferSize : Nat := 65536

/-- The most stat cells that a task may keep for its groups. -/
def maxCells : Nat := 1 <<< 27

/-- Settings with nothing set, for a machine that runs `numWorkers` tasks at once. -/
def initial (numWorkers : Nat) : Settings where
  shardDirs := []
  intFields := []
  stringFields := []
  splitsDir := none
  numGroups := 0
  numStats := 0
  numSplits := 1
  numWorkers := numWorkers
  binaryMetrics := false
  partitionRule := .hash
  writerBufferSize := defaultBufferSize

instance : Inhabited Settings := ⟨initial 1⟩

/-- All fields with their kinds; a field's place in this list is its index. -/
def fields (s : Settings) : List (String × TermKind) :=
  Shard.typedFields s.intFields s.stringFields

def numFields (s : Settings) : Nat :=
  s.intFields.length + s.stringFields.length

/-- The number of output streams. It is computed in machine words, without a check. -/
def numStreams (s : Settings) : Nat :=
  s.numFields * s.numSplits % UInt64.size

/-- The number of the output stream of a field's split, computed like that of all streams. -/
def streamIndex (s : Settings) (field split : Nat) : Nat :=
  (field * s.numSplits + split) % UInt64.size

def validateFields (seen : List String) : List String → Except Error Unit
  | [] => .ok ()
  | name :: rest =>
      if name.isEmpty then .error (.invalidArgument "fields" "empty field name")
      else if seen.contains name then .error (ShardFault.repeatedField name).toError
      else validateFields (name :: seen) rest

def validate (s : Settings) : Except Error Unit := do
  requireArgument (!s.shardDirs.isEmpty) "shard_dirs" "!self.shard_dirs.is_empty()"
  requireArgument (0 < s.numSplits) "num_splits" "self.num_splits > 0"
  requireArgument (0 < s.numWorkers) "num_workers" "self.num_workers > 0"
  requireArgument (0 < s.numGroups) "num_groups" "self.num_groups > 0"
  requireArgument (s.numGroups < UInt32.size) "num_groups" "self.num_groups <= u32::MAX as usize"
  requireArgument (s.numGroups * max s.numStats 1 ≤ maxCells) "num_groups"
    s!"{s.numGroups} groups x {s.numStats} stats exceeds {maxCells} accumulator cells"
  requireArgument (0 < s.writerBufferSize) "writer_buffer_size" "self.writer_buffer_size > 0"
  validateFields [] (s.fields.map (·.1))

end Settings
end TermStats
