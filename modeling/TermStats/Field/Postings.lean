import TermStats.Varint.Reader

/-!
Posting lists: at each offset a term file records, the doc-id file holds that term's
document ids as varint deltas. The first delta counts from zero, every later one is
at least one, so the ids are non-negative and strictly ascending.
-/

namespace TermStats

/-- The sum of two signed words, when it is one. -/
def addExact? (a b : Int64) : Option Int64 :=
  let sum := a.toInt + b.toInt
  if Int64.minValue.toInt ≤ sum ∧ sum ≤ Int64.maxValue.toInt then some (Int64.ofInt sum) else none

inductive PostingFault where
  | location (offset : Int64) (docFreq : Int32)
  | read (f : ReadFault)
  | delta (delta : Int64) (last : Int64)
  deriving Repr, DecidableEq, Inhabited

namespace PostingFault

def message : PostingFault → String
  | location offset docFreq => s!"invalid posting location (offset {offset}, doc_freq {docFreq})"
  | read f => f.message
  | delta d last => s!"doc id delta {d} after doc {last}"

def toError (f : PostingFault) : Error :=
  .invalidFormat "doc-id file" f.message

end PostingFault

/-- What is still to be read of one posting list. `last` is zero before the first id. -/
structure DocIds where
  reader : Reader
  remaining : Nat
  last : Int64
  first : Bool
  deriving Repr, DecidableEq, Inhabited

namespace DocIds

/-- The posting list of `docFreq` ids at `offset` of a doc-id file. -/
def locate (data : Bytes) (offset : Int64) (docFreq : Int32) : Except PostingFault DocIds :=
  if offset < 0 ∨ docFreq < 0 then .error (.location offset docFreq)
  else
    match Reader.atOffset data offset.toInt.toNat with
    | .error f => .error (.read f)
    | .ok r => .ok ⟨r, docFreq.toInt.toNat, 0, true⟩

/-- The least delta that may come next. -/
def leastDelta (d : DocIds) : Int64 :=
  if d.first then 0 else 1

/-- A fault ends the list. -/
def next (d : DocIds) : Option (Except PostingFault Int64) × DocIds :=
  match d.remaining with
  | 0 => (none, d)
  | left + 1 =>
      match d.reader.readInt with
      | .error f => (some (.error (.read f)), { d with remaining := 0 })
      | .ok (delta, r) =>
          match addExact? d.last delta with
          | some id =>
              if d.leastDelta ≤ delta then (some (.ok id), ⟨r, left, id, false⟩)
              else (some (.error (.delta delta d.last)), ⟨r, 0, d.last, false⟩)
          | none => (some (.error (.delta delta d.last)), ⟨r, 0, d.last, false⟩)

theorem next_eq_none {d d' : DocIds} (h : d.next = (none, d')) : d.remaining = 0 ∧ d' = d := by
  simp only [next] at h
  split at h
  · rename_i hr
    cases h
    exact ⟨hr, rfl⟩
  · split at h
    · simp at h
    · split at h
      · split at h <;> simp at h
      · simp at h

theorem remaining_of_next {d d' : DocIds} {x : Except PostingFault Int64}
    (h : d.next = (some x, d')) : d'.remaining < d.remaining := by
  simp only [next] at h
  split at h
  · simp at h
  · rename_i hr
    split at h
    · cases h; simp [hr]
    · split at h
      · split at h <;> cases h <;> simp [hr]
      · cases h; simp [hr]

/-- Everything the list yields: its ids, and at most one fault, at the end. -/
def items (d : DocIds) : List (Except PostingFault Int64) :=
  match _h : d.next with
  | (none, _) => []
  | (some x, d') => x :: d'.items
termination_by d.remaining
decreasing_by exact remaining_of_next _h

end DocIds
end TermStats
