import TermStats.Field.Entry
import TermStats.Field.Postings
import TermStats.Term.Grouping
import TermStats.Text.Quoted

/-!
Cursors over the terms of one shard's field. A cursor accumulates the deltas of the
term file and checks the order it must have: doc freqs are positive and the pair of id
and doc offset ascends. The first fault is yielded once and exhausts the cursor.
-/

namespace TermStats

/-- Which opening of a term file a cursor stems from. Copies of a cursor share it. -/
structure Opening where
  number : Nat
  shard : Nat
  deriving Repr, DecidableEq, Inhabited

/-- An opened term file, with the shard and field that its faults name. -/
structure TermFile where
  opening : Opening
  directory : Path
  field : String
  kind : TermKind
  data : Bytes
  deriving Repr, DecidableEq, Inhabited

inductive TermFault where
  | entry (kind : TermKind) (f : EntryFault)
  | docFreq (freq : Int64) (id : TermId) (pos : Nat)
  | negativeOffset (delta : Int64) (after : Term)
  | offsetOverflow
  | negativeId (delta : Int64) (after : Term)
  | idOverflow
  | descending (term previous : Bytes)
  | duplicate (term : Term)
  deriving Repr, DecidableEq, Inhabited

def TermFault.message : TermFault → String
  | entry kind f => (f.toError kind).message
  | docFreq freq id pos => s!"doc_freq {freq} of term {id.text} at offset {pos}"
  | negativeOffset delta after => s!"negative doc offset delta {delta} after {after.text}"
  | offsetOverflow => "doc offset overflow"
  | negativeId delta after => s!"negative id delta {delta} after {after.text}"
  | idOverflow => "term id overflow"
  | descending term previous => s!"term '{Text.lossy term}' follows '{Text.lossy previous}'"
  | duplicate term => s!"duplicate term {term.text}"

/-- How faults in a field's files name the place. -/
def fieldElement (directory : Path) (field : String) : String :=
  s!"shard {directory} field {field}"

/-- A place in a term file, or the end of nothing when there is no file. -/
structure Cursor where
  file : Option TermFile
  pos : Nat
  bytes : Bytes
  current : Term
  started : Bool
  exhausted : Bool
  deriving Repr, DecidableEq

namespace Cursor

/-- The end, without a file. -/
def none : Cursor := ⟨Option.none, 0, [], .empty, false, false⟩

instance : Inhabited Cursor := ⟨none⟩

def ofFile (file : TermFile) : Cursor :=
  { none with file := some file }

def isExhausted (c : Cursor) : Bool :=
  c.exhausted || c.file.isNone

def kind? (c : Cursor) : Option TermKind :=
  c.file.map (·.kind)

def leastFreq : Int64 := 1

def greatestFreq : Int64 := 2147483647

/-- The id of the term that an entry adds to the current one, unless it breaks the order. Before the
first term any id may come. -/
def nextId (c : Cursor) (kind : TermKind) (entry : EntryDeltas) : Except TermFault TermId :=
  match kind with
  | .int =>
      let previous := c.current.id.int?.getD 0
      if !c.started then .ok (.int (previous + entry.idDelta))
      else if entry.idDelta < 0 then .error (.negativeId entry.idDelta c.current)
      else
        match addExact? previous entry.idDelta with
        | some id => .ok (.int id)
        | Option.none => .error .idOverflow
  | .string =>
      let previous := c.current.id.bytes?.getD []
      if c.started ∧ c.bytes < previous then .error (.descending c.bytes previous)
      else .ok (.bytes c.bytes)

/-- The term of an entry that has just been decoded, so that the cursor stands behind it. -/
def accumulate (c : Cursor) (kind : TermKind) (entry : EntryDeltas) : Except TermFault Term :=
  if entry.docFreq < leastFreq ∨ greatestFreq < entry.docFreq then
    let id := match kind with
      | .int => .int (c.current.id.int?.getD 0 + entry.idDelta)
      | .string => .bytes c.bytes
    .error (.docFreq entry.docFreq id c.pos)
  else if entry.offsetDelta < 0 then .error (.negativeOffset entry.offsetDelta c.current)
  else
    match addExact? c.current.offset entry.offsetDelta with
    | Option.none => .error .offsetOverflow
    | some offset =>
        match c.nextId kind entry with
        | .error f => .error f
        | .ok id =>
            if c.started ∧ id = c.current.id ∧ entry.offsetDelta = 0 then
              .error (.duplicate c.current)
            else .ok ⟨id, offset, entry.docFreq.toInt32⟩

def finish (c : Cursor) : Cursor :=
  { c with current := .empty, exhausted := true }

def next (c : Cursor) : Option (Except Error Term) × Cursor :=
  match c.exhausted, c.file with
  | false, some file =>
      let malformed (f : TermFault) : Option (Except Error Term) :=
        some (.error (.invalidFormat (fieldElement file.directory file.field) f.message))
      match TermDecoder.next ⟨file.kind, file.data, c.pos, c.bytes⟩ with
      | (.error f, _) => (malformed (.entry file.kind f), c.finish)
      | (.ok Option.none, _) => (Option.none, c.finish)
      | (.ok (some entry), d) =>
          let c := { c with pos := d.pos, bytes := d.term }
          match c.accumulate file.kind entry with
          | .error f => (malformed f, c.finish)
          | .ok t => (some (.ok t), { c with current := t, started := true })
  | _, _ => (Option.none, c)

/-- Exhausted cursors are all alike; others are the same when they stem from one opening and stand
at one place. -/
def same (a b : Cursor) : Bool :=
  match a.isExhausted, b.isExhausted with
  | true, true => true
  | false, false => a.file.map (·.opening) = b.file.map (·.opening) && a.pos = b.pos
  | _, _ => false

/-- A bound on the items still to come. -/
def size (c : Cursor) : Nat :=
  match c.exhausted, c.file with
  | false, some file => file.data.length - c.pos + 1
  | _, _ => 0

theorem size_finish (c : Cursor) : c.finish.size = 0 := rfl

theorem size_of_some {c c' : Cursor} {x : Except Error Term} (h : c.next = (some x, c')) :
    c'.size < c.size := by
  simp only [next] at h
  split at h
  · rename_i file hx hf
    have pos : 0 < c.size := by simp [size, hx, hf]
    split at h
    · cases h
      exact pos
    · cases h
    · rename_i hd
      split at h
      · cases h
        exact pos
      · cases h
        have := TermDecoder.progress_of_next hd
        simp only [size, hx, hf] at this ⊢
        omega
  · cases h

theorem size_of_none {c c' : Cursor} (h : c.next = (Option.none, c')) : c'.size ≤ c.size := by
  simp only [next] at h
  split at h
  · split at h
    · cases h
    · cases h
      simp [size_finish]
    · split at h <;> cases h
  · cases h
    exact Nat.le_refl _

instance : TermSource Cursor where
  next := next
  size := size
  size_of_some := size_of_some
  size_of_none := size_of_none

def debugId : TermId → String
  | .int v => s!"Int({v})"
  | .bytes v => s!"Bytes({v})"

def debugTerm (t : Term) : String :=
  s!"Term \x7b id: {debugId t.id}, doc_offset: {t.offset}, doc_freq: {t.freq} \x7d"

def debugText (c : Cursor) : String :=
  let place := match c.file with
    | some f => s!"directory: {Text.quote f.directory}, field: {Text.quote f.field}, "
    | Option.none => ""
  s!"TermIterator \x7b {place}pos: {c.pos}, current: {debugTerm c.current}, " ++
    s!"exhausted: {c.isExhausted} \x7d"

end Cursor
end TermStats
