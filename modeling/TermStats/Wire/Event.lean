import TermStats.Term.Basic

/-!
The records of an output stream, as `(fieldStart term* fieldEnd)* streamEnd`. Every
record starts with a one-byte tag.
-/

namespace TermStats.Wire

inductive RecordTag where
  | fieldStart
  | term
  | fieldEnd
  | streamEnd
  deriving Repr, DecidableEq, Inhabited

namespace RecordTag

def byte : RecordTag → UInt8
  | fieldStart => 1
  | term => 2
  | fieldEnd => 3
  | streamEnd => 4

def ofByte? (b : UInt8) : Option RecordTag :=
  if b = 1 then some fieldStart
  else if b = 2 then some term
  else if b = 3 then some fieldEnd
  else if b = 4 then some streamEnd
  else none

def name : RecordTag → String
  | fieldStart => "FieldStart"
  | term => "Term"
  | fieldEnd => "FieldEnd"
  | streamEnd => "StreamEnd"

theorem ofByte?_byte (t : RecordTag) : ofByte? t.byte = some t := by
  cases t <;> rfl

end RecordTag

/-- The stats of one group, one value for each stat column. -/
structure GroupRow where
  group : UInt32
  stats : List Int64
  deriving Repr, DecidableEq, Inhabited

structure TermRecord where
  term : TermId
  docFreq : UInt64
  groups : List GroupRow
  deriving Repr, DecidableEq, Inhabited

inductive Event where
  | fieldStart (name : String) (kind : TermKind) (numStats : Nat)
  | term (record : TermRecord)
  | fieldEnd
  | streamEnd
  deriving Repr, DecidableEq, Inhabited

end TermStats.Wire
