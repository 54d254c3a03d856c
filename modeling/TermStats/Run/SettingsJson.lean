import TermStats.Run.Settings
import TermStats.Text.Json

/-!
Settings as a JSON text: an object with a member for each setting, in one order when
written and in any order when read, or an array of the settings in that order. Unknown
members are passed over, repeated ones are refused; naturals must fit 64 bits.
-/

namespace TermStats.Settings

open Json (Value)

def keys : List String :=
  ["shard_dirs", "int_fields", "string_fields", "splits_dir", "num_groups", "num_stats",
    "num_splits", "num_workers", "only_binary_metrics", "partitioner", "writer_buffer_size"]

def toJson (s : Settings) : String :=
  Json.printObject (keys.zip
    [Json.printStrings s.shardDirs, Json.printStrings s.intFields,
      Json.printStrings s.stringFields, (s.splitsDir.map Json.printString).getD "null",
      toString s.numGroups, toString s.numStats, toString s.numSplits, toString s.numWorkers,
      toString s.binaryMetrics, Json.printString s.partitionRule.name,
      toString s.writerBufferSize])

def natural? : Value → Option Nat
  | .number (some n) => if n < UInt64.size then some n else none
  | _ => none

def text? : Value → Option String
  | .string text => text
  | _ => none

def texts? : Value → Option (List String)
  | .array items => items.mapM text?
  | _ => none

def optionalText? : Value → Option (Option String)
  | .null => some none
  | v => (text? v).map some

def flag? : Value → Option Bool
  | .bool b => some b
  | _ => none

/-- A rule by its name, alone or as the only member of an object without content. -/
def rule? : Value → Option PartitionRule
  | .string (some name) => PartitionRule.ofName? name
  | .object [(some name, .null)] => PartitionRule.ofName? name
  | _ => none

/-- Reads the value of a setting; one that is not given has the default, if there is one. -/
def setting {α : Type} (read : Value → Option α) (default : Option α) : Option Value → Option α
  | some v => read v
  | none => default

/-- Settings from the values given for `keys`, in that order. -/
def ofValues? (numWorkers : Nat) (value : Nat → Option Value) : Option Settings := do
  let s := initial numWorkers
  return {
    shardDirs := ← setting texts? none (value 0)
    intFields := ← setting texts? (some s.intFields) (value 1)
    stringFields := ← setting texts? (some s.stringFields) (value 2)
    splitsDir := ← setting optionalText? (some s.splitsDir) (value 3)
    numGroups := ← setting natural? none (value 4)
    numStats := ← setting natural? none (value 5)
    numSplits := ← setting natural? (some s.numSplits) (value 6)
    numWorkers := ← setting natural? (some s.numWorkers) (value 7)
    binaryMetrics := ← setting flag? (some s.binaryMetrics) (value 8)
    partitionRule := ← setting rule? (some s.partitionRule) (value 9)
    writerBufferSize := ← setting natural? (some s.writerBufferSize) (value 10) }

/-- No known key occurs twice, and all keys are text. -/
def keysAllowed (members : List (Option String × Value)) : Bool :=
  members.all (·.1.isSome) &&
    keys.all fun k => members.countP (·.1 = some k) ≤ 1

/-- Reads settings. Where the number of workers is not given, it is `numWorkers`. -/
def ofValue? (numWorkers : Nat) : Value → Option Settings
  | .object members =>
      if keysAllowed members then
        ofValues? numWorkers fun i => keys[i]?.bind fun k => members.lookup (some k)
      else none
  | .array items =>
      if items.length ≤ keys.length then ofValues? numWorkers fun i => items[i]? else none
  | _ => none

/-- Reads settings from a text. -/
def ofJson? (numWorkers : Nat) (text : String) : Option Settings := do
  ofValue? numWorkers (← Json.parse? text)

end TermStats.Settings
