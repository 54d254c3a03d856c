import TermStats.Shard.Basic

/-!
The summary of one field of one shard, gathered by decoding all its terms and all
their postings.
-/

namespace TermStats

structure FieldSummary where
  termCount : Nat
  minId : Option TermId
  maxId : Option TermId
  maxFreq : Int32
  totalFreq : Int64
  minDoc : Option Int64
  maxDoc : Option Int64
  deriving Repr, DecidableEq

namespace FieldSummary

def empty : FieldSummary := ⟨0, none, none, 0, 0, none, none⟩

instance : Inhabited FieldSummary := ⟨empty⟩

/-- Counts a term. Terms come in ascending order, so the first has the least id and the last the
greatest. -/
def addTerm (s : FieldSummary) (t : Term) : FieldSummary :=
  { s with
    termCount := s.termCount + 1
    minId := s.minId.or (some t.id)
    maxId := some t.id
    maxFreq := if s.maxFreq < t.freq then t.freq else s.maxFreq
    totalFreq := s.totalFreq + t.freq.toInt64 }

def addDoc (s : FieldSummary) (doc : Int64) : FieldSummary :=
  { s with
    minDoc := some (s.minDoc.elim doc fun d => if doc < d then doc else d)
    maxDoc := some (s.maxDoc.elim doc fun d => if d < doc then doc else d) }

def addDocs (s : FieldSummary) : List (Except PostingFault Int64) → Except Error FieldSummary
  | [] => .ok s
  | .ok doc :: rest => (s.addDoc doc).addDocs rest
  | .error f :: _ => .error f.toError

def addTerms (docs : Bytes) (s : FieldSummary) :
    List (Except Error Term) → Except Error FieldSummary
  | [] => .ok s
  | .error e :: _ => .error e
  | .ok t :: rest =>
      match DocIds.locate docs t.offset t.freq with
      | .error f => .error f.toError
      | .ok ids =>
          match (s.addTerm t).addDocs ids.items with
          | .error e => .error e
          | .ok s => addTerms docs s rest

end FieldSummary

/-- Fails on the first malformed term or posting list. -/
def Shard.summarize (s : Shard) (field : String) : Except Error FieldSummary := do
  let files ← s.field field
  let terms ← s.termCursor field default
  FieldSummary.addTerms files.docs.bytes .empty (TermSource.toList terms)

end TermStats
