import TermStats.Field.Kind
import TermStats.Text.Utf8

/-!
Term ids and terms. Int ids order by value and come before byte ids, which order
lexicographically; terms order by id, then by the place of their posting list.
-/

namespace TermStats

inductive TermId where
  | int (value : Int64)
  | bytes (value : Bytes)
  deriving Repr, DecidableEq

namespace TermId

instance : Inhabited TermId := ⟨int 0⟩

def kind : TermId → TermKind
  | int _ => .int
  | bytes _ => .string

/-- The least plain id of a kind. -/
def defaultFor : TermKind → TermId
  | .int => int 0
  | .string => bytes []

def int? : TermId → Option Int64
  | int v => some v
  | bytes _ => none

def bytes? : TermId → Option Bytes
  | int _ => none
  | bytes v => some v

def text : TermId → String
  | int v => toString v
  | bytes v => Text.lossy v

/-- The order of ids; every int id is below every byte id. -/
protected def lt : TermId → TermId → Prop
  | int a, int b => a < b
  | int _, bytes _ => True
  | bytes _, int _ => False
  | bytes a, bytes b => a < b

instance : LT TermId := ⟨TermId.lt⟩

instance : DecidableLT TermId := fun a b =>
  match a, b with
  | int a, int b => inferInstanceAs (Decidable (a < b))
  | int _, bytes _ => isTrue trivial
  | bytes _, int _ => isFalse id
  | bytes a, bytes b => inferInstanceAs (Decidable (a < b))

theorem int_lt_int {a b : Int64} : int a < int b ↔ a < b := Iff.rfl

theorem bytes_lt_bytes {a b : Bytes} : bytes a < bytes b ↔ a < b := Iff.rfl

theorem int_lt_bytes (a : Int64) (b : Bytes) : int a < bytes b := trivial

theorem not_bytes_lt_int (a : Bytes) (b : Int64) : ¬ bytes a < int b := id

def cmp (a b : TermId) : Ordering :=
  if a < b then .lt else if a = b then .eq else .gt

end TermId

/-- An id and the place and length of its posting list in one shard's field. -/
structure Term where
  id : TermId
  offset : Int64
  freq : Int32
  deriving Repr, DecidableEq

namespace Term

/-- The empty term, which no list of postings belongs to. -/
def empty : Term := ⟨.int 0, 0, 0⟩

instance : Inhabited Term := ⟨empty⟩

def isEmpty (t : Term) : Bool :=
  t.freq = 0

def text (t : Term) : String :=
  s!"id: {t.id.text} doc_offset: {t.offset} doc_freq: {t.freq}"

def cmp (a b : Term) : Ordering :=
  (a.id.cmp b.id).then ((compare a.offset b.offset).then (compare a.freq b.freq))

/-- The positions of the terms in ascending order; equal terms keep their order. -/
def ascendingOrder (terms : List Term) : List Nat :=
  (terms.zipIdx.mergeSort fun a b => a.1.cmp b.1 ≠ .gt).map (·.2)

end Term
end TermStats
