import TermStats.Shard.Basic
import TermStats.Term.Merge

/-!
The terms of one field in all shards of a run, divided into splits. Every split walks
all term files and keeps the ids the partitioner gives it; postings carry the index of
their shard.
-/

namespace TermStats

structure Provider where
  sources : List (Shard × Cursor)
  field : String
  kind : TermKind
  numSplits : Nat
  partitioner : Partitioner
  deriving Inhabited

inductive ProviderFault where
  | noSplits
  | noShards
  | tooManyShards
  | mixedKinds (field : String) (kind : TermKind) (directory : Path) (firstKind : TermKind)
      (firstDirectory : Path)
  | splitRange (split numSplits : Nat)
  deriving Repr, DecidableEq, Inhabited

def ProviderFault.toError : ProviderFault → Error
  | noSplits => .invalidArgument "num_splits" "num_splits > 0"
  | noShards => .invalidArgument "shards" "!shards.is_empty()"
  | tooManyShards => .invalidArgument "shards" "shards.len() <= u32::MAX as usize"
  | mixedKinds field kind dir firstKind firstDir =>
      .invalidArgument "field" (s!"'{field}' is a {kind.name} field in shard {dir} " ++
        s!"but a {firstKind.name} field in shard {firstDir}")
  | splitRange split numSplits =>
      .invalidArgument "split" s!"{split} is out of range (num_splits {numSplits})"

namespace Provider

/-- Opens the field in each shard. All must hold it as the kind that the first one, in `firstDir`,
has. -/
def openSources (field : String) (kind : TermKind) (firstDir : Path) (opening : Nat) :
    (index : Nat) → List Shard → Except Error (List (Shard × Cursor))
  | _, [] => .ok []
  | index, s :: rest => do
      let files ← s.field field
      if files.kind ≠ kind then
        throw (ProviderFault.mixedKinds field files.kind s.directory kind firstDir).toError
      let cursor ← s.termCursor field ⟨opening, index⟩
      let more ← openSources field kind firstDir opening (index + 1) rest
      return (s, cursor) :: more

/-- A provider of `field` over all `shards`. The merges it gives out share the opening number. -/
def ofShards (shards : List Shard) (field : String) (numSplits : Nat) (partitioner : Partitioner)
    (opening : Nat) : Except Error Provider :=
  if numSplits = 0 then .error ProviderFault.noSplits.toError
  else
    match shards with
    | [] => .error ProviderFault.noShards.toError
    | first :: _ => do
        if UInt32.size ≤ shards.length then throw ProviderFault.tooManyShards.toError
        let files ← first.field field
        let sources ← openSources field files.kind first.directory opening 0 shards
        return ⟨sources, field, files.kind, numSplits, partitioner⟩

def shardCount (p : Provider) : Nat :=
  p.sources.length

/-- The shard whose postings carry `index`. -/
def shard? (p : Provider) (index : UInt32) : Option Shard :=
  p.sources[index.toNat]?.map (·.1)

def mergeOf (p : Provider) (share : Option Share) : Merge Cursor :=
  .ofSources (p.sources.zipIdx.map fun ((_, cursor), i) => (i.toUInt32, ⟨cursor, share⟩))

/-- The merge of all terms of the field. -/
def mergeAll (p : Provider) : Merge Cursor :=
  p.mergeOf none

/-- The merge of one split's terms. A single split has them all. -/
def mergeSplit (p : Provider) (split : Nat) : Except Error (Merge Cursor) :=
  if p.numSplits ≤ split then .error (ProviderFault.splitRange split p.numSplits).toError
  else if p.numSplits = 1 then .ok p.mergeAll
  else .ok (p.mergeOf (some ⟨p.partitioner, split, p.numSplits⟩))

end Provider
end TermStats
