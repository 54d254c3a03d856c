import TermStats.Wire.Event
import TermStats.Field.Writer

/-!
The encoder of one output stream. Terms are written as differences to the term before
them in the field, groups as differences to the group before them in the record. The
encoder keeps these and the field's number of stats; the order of records is up to its
caller.
-/

namespace TermStats.Wire

structure Encoder where
  numStats : Nat
  prevInt : Int64
  prevBytes : Bytes
  deriving Repr, DecidableEq

inductive EncodeFault where
  | statCount (values groups numStats : Nat)
  | groupOrder
  deriving Repr, DecidableEq, Inhabited

def EncodeFault.toError : EncodeFault → Error
  | statCount values groups numStats =>
      .invalidArgument "stats" s!"{values} values for {groups} groups of {numStats} stats"
  | groupOrder => .invalidArgument "groups" "groups must be strictly ascending"

/-- The groups of a record with their stats, taken `numStats` at a time. -/
def encodeGroups (numStats : Nat) : (last : UInt32) → List UInt32 → List Int64 → Bytes
  | _, [], _ => []
  | last, group :: groups, stats =>
      Varint.encode (group - last).toUInt64 ++ (stats.take numStats).flatMap Varint.encodeZigzag
        ++ encodeGroups numStats group groups (stats.drop numStats)

namespace Encoder

/-- An encoder before its first record. -/
def start : Encoder := ⟨0, 0, []⟩

instance : Inhabited Encoder := ⟨start⟩

def fieldStart (_ : Encoder) (name : String) (kind : TermKind) (numStats : Nat) :
    Bytes × Encoder :=
  let nameBytes := Text.encode name
  (RecordTag.fieldStart.byte :: kind.wireTag :: Varint.encodeNat nameBytes.length ++ nameBytes
    ++ Varint.encodeNat numStats, ⟨numStats, 0, []⟩)

/-- The id of a term, against the id of the same kind written last. -/
def termKey (e : Encoder) : TermId → Bytes × Encoder
  | .int id => (Varint.encodeZigzag (id - e.prevInt), { e with prevInt := id })
  | .bytes bs =>
      let shared := commonLength e.prevBytes bs
      (Varint.encodeNat shared ++ Varint.encodeNat (bs.length - shared) ++ bs.drop shared,
        { e with prevBytes := bs })

/-- A term record. `stats` holds the stats of the first group, then of the second, and so on. A
refused record leaves the encoder as it was. -/
def term (e : Encoder) (id : TermId) (docFreq : UInt64) (groups : List UInt32)
    (stats : List Int64) : Except EncodeFault (Bytes × Encoder) :=
  if stats.length ≠ groups.length * e.numStats then
    .error (.statCount stats.length groups.length e.numStats)
  else if !ascending groups then .error .groupOrder
  else
    let (key, e') := e.termKey id
    .ok (RecordTag.term.byte :: key ++ Varint.encode docFreq ++ Varint.encodeNat groups.length
      ++ encodeGroups e.numStats 0 groups stats, e')

def fieldEnd (e : Encoder) : Bytes × Encoder :=
  ([RecordTag.fieldEnd.byte], e)

def streamEnd (e : Encoder) : Bytes × Encoder :=
  ([RecordTag.streamEnd.byte], e)

/-- Encodes an event as the operation for its record does. -/
def event (e : Encoder) : Event → Except EncodeFault (Bytes × Encoder)
  | .fieldStart name kind numStats => .ok (e.fieldStart name kind numStats)
  | .term r => e.term r.term r.docFreq (r.groups.map (·.group)) (r.groups.flatMap (·.stats))
  | .fieldEnd => .ok e.fieldEnd
  | .streamEnd => .ok e.streamEnd

/-- The records of `events`, one after another. -/
def events (e : Encoder) : List Event → Except EncodeFault (Bytes × Encoder)
  | [] => .ok ([], e)
  | ev :: rest => do
      let (bytes, e) ← e.event ev
      let (more, e) ← e.events rest
      return (bytes ++ more, e)

end Encoder
end TermStats.Wire
