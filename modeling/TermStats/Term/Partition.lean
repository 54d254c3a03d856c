import TermStats.Term.Basic
import TermStats.Hash.Xxh3

/-!
The assignment of term ids to splits. A partitioner depends on nothing but the id and
the number of splits, so all shards and all runs agree on where a term goes.
-/

namespace TermStats

/-- A seeded hash of byte strings. -/
abbrev ByteHash := (seed : UInt64) → Bytes → UInt64

namespace TermId

/-- The hash of the eight little-endian bytes of an int id, or of the bytes of a byte id. -/
def hashBy (hash : ByteHash) (seed : UInt64) : TermId → UInt64
  | int v => hash seed (Xxh3.littleEndian v.toUInt64)
  | bytes v => hash seed v

/-- A hash that is the same on every machine. -/
def stableHash : (seed : UInt64) → TermId → UInt64 :=
  hashBy Xxh3.hash

end TermId

/-- Gives each id its split, out of a number of splits. An id without a split has none to be
computed: there are no splits, or the remainder does not exist in a signed word. -/
structure Partitioner where
  splitOf? : TermId → (numSplits : Nat) → Option Nat

namespace Partitioner

instance : Inhabited Partitioner := ⟨⟨fun _ _ => none⟩⟩

/-- The hash of the id, modulo the number of splits. -/
def hashingBy (hash : ByteHash) (seed : UInt64) : Partitioner :=
  ⟨fun id numSplits =>
    if numSplits = 0 then none else some ((id.hashBy hash seed).toNat % numSplits)⟩

def hashing : (seed : UInt64) → Partitioner :=
  hashingBy Xxh3.hash

/-- The non-negative remainder of an int id by the number of splits, which counts as a signed word:
from 2^63 on it stands for a negative divisor. Dividing the least word by -1 has no result. -/
def remainder? (v : Int64) (numSplits : Nat) : Option Nat :=
  let divisor := Int.bmod numSplits UInt64.size
  if divisor = 0 ∨ (divisor = -1 ∧ v = Int64.minValue) then none
  else some (v.toInt % divisor).toNat

/-- Int ids by their remainder; byte ids are hashed. -/
def moduloBy (hash : ByteHash) : Partitioner :=
  ⟨fun id numSplits =>
    match id with
    | .int v => remainder? v numSplits
    | .bytes _ => (hashingBy hash 0).splitOf? id numSplits⟩

def modulo : Partitioner :=
  moduloBy Xxh3.hash

end Partitioner
end TermStats
