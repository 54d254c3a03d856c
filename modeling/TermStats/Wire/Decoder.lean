import TermStats.Wire.Event
import TermStats.Varint.Reader

/-!
The decoder of an output stream, which also enforces the order of records. It stops
after its first fault. A stream that merely ends before its `streamEnd` is no fault of
the decoder; `decodeStream` refuses it.
-/

namespace TermStats.Wire

/-- Where in the order of records a decoder stands. -/
inductive Place where
  | outsideField
  | inField (kind : TermKind)
  | ended
  deriving Repr, DecidableEq, Inhabited

def Place.name : Place → String
  | outsideField => "OutsideField"
  | inField .int => "InField(Int)"
  | inField .string => "InField(String)"
  | ended => "Ended"

inductive StreamFault where
  | read (f : ReadFault)
  | unknownTag (byte : UInt8)
  | unknownKind (byte : UInt8)
  | nameNotText
  | misplaced (tag : RecordTag) (place : Place)
  | sharedTooLong
  | groupOverflow
  | missingEnd
  | trailingBytes
  deriving Repr, DecidableEq, Inhabited

def hexDigit (n : Nat) : Char :=
  if n < 10 then Char.ofNat (48 + n) else Char.ofNat (87 + n)

/-- Two lower-case hex digits. -/
def hexByte (b : UInt8) : String :=
  String.ofList [hexDigit (b.toNat / 16), hexDigit (b.toNat % 16)]

namespace StreamFault

def message : StreamFault → String
  | read f => f.message
  | unknownTag b => s!"unknown record tag 0x{hexByte b}"
  | unknownKind b => s!"unknown term type {b}"
  | nameNotText => "field name is not utf-8"
  | misplaced tag place => s!"{tag.name} record in state {place.name}"
  | sharedTooLong => "shared prefix longer than previous term"
  | groupOverflow => "group overflows u32"
  | missingEnd => "missing stream_end"
  | trailingBytes => "trailing bytes after stream_end"

def toError (f : StreamFault) : Error :=
  .invalidFormat "ftgs stream" f.message

end StreamFault

structure Decoder where
  reader : Reader
  place : Place
  failed : Bool
  numStats : Nat
  prevInt : Int64
  prevBytes : Bytes
  deriving Repr, DecidableEq

def readStats : (count : Nat) → Reader → Except ReadFault (List Int64 × Reader)
  | 0, r => .ok ([], r)
  | count + 1, r => do
      let (stat, r) ← r.readZigzag
      let (stats, r) ← readStats count r
      return (stat :: stats, r)

/-- Reads `count` groups. A delta of zero repeats the group before it. -/
def readGroups (numStats : Nat) :
    (count : Nat) → (last : Nat) → Reader → Except StreamFault (List GroupRow × Reader)
  | 0, _, r => .ok ([], r)
  | count + 1, last, r => do
      let (delta, r) ← r.readU64.mapError .read
      let group := last + delta.toNat
      if UInt32.size ≤ group then throw .groupOverflow
      let (stats, r) ← (readStats numStats r).mapError .read
      let (groups, r) ← readGroups numStats count group r
      return (⟨group.toUInt32, stats⟩ :: groups, r)

namespace Decoder

def ofBytes (data : Bytes) : Decoder :=
  ⟨.ofBytes data, .outsideField, false, 0, 0, []⟩

/-- A `streamEnd` has been decoded. -/
def isComplete (d : Decoder) : Bool :=
  d.place = .ended

def readFieldStart (d : Decoder) : Except StreamFault (Event × Decoder) := do
  let (tag, r) ← d.reader.readByte.mapError .read
  let some kind := TermKind.ofWireTag? tag | throw (.unknownKind tag)
  let (length, r) ← r.readU64.mapError .read
  let (bytes, r) ← (r.readBytes length.toNat).mapError .read
  let some name := Text.decode? bytes | throw .nameNotText
  let (numStats, r) ← r.readU64.mapError .read
  return (.fieldStart name kind numStats.toNat,
    ⟨r, .inField kind, d.failed, numStats.toNat, 0, []⟩)

/-- The id of the next term, as a difference to the one before it in the field. -/
def readTermKey (d : Decoder) : TermKind → Except StreamFault (TermId × Decoder)
  | .int => do
      let (delta, r) ← d.reader.readZigzag.mapError .read
      let id := d.prevInt + delta
      return (.int id, { d with reader := r, prevInt := id })
  | .string => do
      let (shared, r) ← d.reader.readU64.mapError .read
      let (added, r) ← r.readU64.mapError .read
      if d.prevBytes.length < shared.toNat then throw .sharedTooLong
      let (suffix, r) ← (r.readBytes added.toNat).mapError .read
      let bytes := d.prevBytes.take shared.toNat ++ suffix
      return (.bytes bytes, { d with reader := r, prevBytes := bytes })

def readTerm (d : Decoder) (kind : TermKind) : Except StreamFault (Event × Decoder) := do
  let (id, d) ← d.readTermKey kind
  let (docFreq, r) ← d.reader.readU64.mapError .read
  let (count, r) ← r.readU64.mapError .read
  let (groups, r) ← readGroups d.numStats count.toNat 0 r
  return (.term ⟨id, docFreq, groups⟩, { d with reader := r })

/-- The record that `tag` starts, with the decoder's reader behind the tag. -/
def readRecord (d : Decoder) (tag : RecordTag) : Except StreamFault (Event × Decoder) :=
  match tag, d.place with
  | .fieldStart, .outsideField => d.readFieldStart
  | .term, .inField kind => d.readTerm kind
  | .fieldEnd, .inField _ => .ok (.fieldEnd, { d with place := .outsideField })
  | .streamEnd, .outsideField => .ok (.streamEnd, { d with place := .ended })
  | tag, place => .error (.misplaced tag place)

def readEvent (d : Decoder) : Except StreamFault (Event × Decoder) := do
  let (byte, r) ← d.reader.readByte.mapError .read
  let some tag := RecordTag.ofByte? byte | throw (.unknownTag byte)
  readRecord { d with reader := r } tag

/-- The next event, or nothing after a fault, after the end of the stream, and where the data
stops. -/
def next (d : Decoder) : Option (Except StreamFault Event) × Decoder :=
  if d.failed ∨ d.isComplete ∨ d.reader.isEmpty then (none, d)
  else
    match d.readEvent with
    | .error f => (some (.error f), { d with failed := true })
    | .ok (event, d') => (some (.ok event), d')

end Decoder
end TermStats.Wire
