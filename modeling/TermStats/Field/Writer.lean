import TermStats.Field.Entry

/-!
The writer of a field's two files. The `push…Term` operations write a posting list
and the term entry that points to it, and check order; the `push…Entry` operations
write an entry as given. A call that fails may leave its posting list behind, which
no entry then points to.
-/

namespace TermStats

/-- The length of the longest common beginning. -/
def commonLength : Bytes → Bytes → Nat
  | a :: as, b :: bs => if a = b then commonLength as bs + 1 else 0
  | _, _ => 0

inductive WriteFault where
  | emptyPostings
  | unsortedPostings
  | negativePosting
  | idOrder (id previous : Int64)
  | termOrder (term previous : Bytes)
  | wrongKind (entry : TermKind)
  deriving Repr, DecidableEq, Inhabited

def WriteFault.toError : WriteFault → Error
  | emptyPostings => .invalidArgument "doc_ids" "!doc_ids.is_empty()"
  | unsortedPostings => .invalidArgument "doc_ids" "doc_ids.windows(2).all(|w| w[0] < w[1])"
  | negativePosting => .invalidArgument "doc_ids" "doc_ids.first().is_none_or(|&d| d >= 0)"
  | idOrder id previous => .invalidArgument "id" s!"{id} does not follow {previous}"
  | termOrder term previous =>
      .invalidArgument "term" s!"{Text.lossy term} does not follow {Text.lossy previous}"
  | wrongKind .int => .invalidArgument "kind" "self.kind == TermKind::Int"
  | wrongKind .string => .invalidArgument "kind" "self.kind == TermKind::String"

/-- The files so far, and what the next entry is a difference to. -/
structure FieldWriter where
  kind : TermKind
  terms : Bytes
  docs : Bytes
  prevId : Int64
  prevTerm : Bytes
  prevOffset : Int64
  count : Nat
  deriving Repr, DecidableEq, Inhabited

/-- Every value is below the next one. -/
def ascending {α : Type} [LT α] [DecidableLT α] : List α → Bool
  | a :: b :: rest => a < b && ascending (b :: rest)
  | _ => true

/-- A posting list as deltas, the first one to `last`. -/
def encodePostings (last : Int64) : List Int64 → Bytes
  | [] => []
  | id :: rest => Varint.encodeInt (id - last) ++ encodePostings id rest

namespace FieldWriter

def ofKind (kind : TermKind) : FieldWriter :=
  ⟨kind, [], [], 0, [], 0, 0⟩

/-- Appends a posting list, and tells where it starts. -/
def pushDocs (w : FieldWriter) (ids : List Int64) : Except WriteFault Int64 × FieldWriter :=
  if !ascending ids then (.error .unsortedPostings, w)
  else if ids.head?.any (· < 0) then (.error .negativePosting, w)
  else (.ok (Int64.ofNat w.docs.length), { w with docs := w.docs ++ encodePostings 0 ids })

/-- Appends an int entry, as the wrapping differences to the entry before it. -/
def pushIntEntry (w : FieldWriter) (id offset docFreq : Int64) :
    Except WriteFault Unit × FieldWriter :=
  if w.kind = .int then
    (.ok (),
      { w with
        terms := w.terms ++ Varint.encodeInt (id - w.prevId)
          ++ Varint.encodeInt (offset - w.prevOffset) ++ Varint.encodeInt docFreq
        prevId := id
        prevOffset := offset
        count := w.count + 1 })
  else (.error (.wrongKind .int), w)

/-- Appends a string entry, sharing as many bytes with the term before it as the two have in
common. -/
def pushStringEntry (w : FieldWriter) (term : Bytes) (offset docFreq : Int64) :
    Except WriteFault Unit × FieldWriter :=
  if w.kind = .string then
    let shared := commonLength w.prevTerm term
    (.ok (),
      { w with
        terms := w.terms ++ Varint.encodeNat (w.prevTerm.length - shared)
          ++ Varint.encodeNat (term.length - shared) ++ term.drop shared
          ++ Varint.encodeInt (offset - w.prevOffset) ++ Varint.encodeInt docFreq
        prevTerm := term
        prevOffset := offset
        count := w.count + 1 })
  else (.error (.wrongKind .string), w)

def pushIntTerm (w : FieldWriter) (id : Int64) (ids : List Int64) :
    Except WriteFault Unit × FieldWriter :=
  if ids.isEmpty then (.error .emptyPostings, w)
  else if 0 < w.count ∧ id ≤ w.prevId then (.error (.idOrder id w.prevId), w)
  else
    match w.pushDocs ids with
    | (.error f, w) => (.error f, w)
    | (.ok offset, w) => w.pushIntEntry id offset (Int64.ofNat ids.length)

def pushStringTerm (w : FieldWriter) (term : Bytes) (ids : List Int64) :
    Except WriteFault Unit × FieldWriter :=
  if ids.isEmpty then (.error .emptyPostings, w)
  else if 0 < w.count ∧ term ≤ w.prevTerm then (.error (.termOrder term w.prevTerm), w)
  else
    match w.pushDocs ids with
    | (.error f, w) => (.error f, w)
    | (.ok offset, w) => w.pushStringEntry term offset (Int64.ofNat ids.length)

end FieldWriter
end TermStats
