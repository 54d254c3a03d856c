import TermStats.Field.Kind
import TermStats.Varint.Reader
import TermStats.Result

/-!
Term file entries. An int file is a sequence of triples (id delta, offset delta, doc
freq); a string file is a sequence of (bytes removed from the previous term, bytes
added, the added bytes, offset delta, doc freq). Only the structure is checked here:
order and sign are the business of the term cursor, which knows the field it reads.
-/

namespace TermStats

/-- An entry as stored, before accumulation. A string entry has no id delta. -/
structure EntryDeltas where
  idDelta : Int64
  offsetDelta : Int64
  docFreq : Int64
  deriving Repr, DecidableEq, Inhabited

inductive EntryFault where
  | read (f : ReadFault)
  /-- More bytes are to be removed than the previous term has. -/
  | removal (removed : UInt64) (length pos : Nat)
  deriving Repr, DecidableEq, Inhabited

namespace EntryFault

def message : EntryFault → String
  | read f => f.message
  | removal removed length pos =>
      s!"prefix removal of {removed} bytes from a {length} byte term at offset {pos}"

def toError (kind : TermKind) (f : EntryFault) : Error :=
  .invalidFormat s!"{kind.name} term file" f.message

end EntryFault

def readIntEntry (r : Reader) : Except ReadFault (EntryDeltas × Reader) := do
  let (idDelta, r) ← r.readInt
  let (offsetDelta, r) ← r.readInt
  let (docFreq, r) ← r.readInt
  return (⟨idDelta, offsetDelta, docFreq⟩, r)

/-- The term before its last `removed` bytes are dropped is `previous`. -/
def readStringEntry (previous : Bytes) (r : Reader) :
    Except EntryFault (EntryDeltas × Bytes × Reader) := do
  let start := r.pos
  let (removed, r) ← r.readU64.mapError .read
  let (added, r) ← r.readU64.mapError .read
  if previous.length < removed.toNat then
    throw (.removal removed previous.length start)
  let (suffix, r) ← (r.readBytes added.toNat).mapError .read
  let (offsetDelta, r) ← r.readInt.mapError .read
  let (docFreq, r) ← r.readInt.mapError .read
  return (⟨0, offsetDelta, docFreq⟩, previous.take (previous.length - removed.toNat) ++ suffix, r)

open Result in
theorem progress_of_readIntEntry {r r' : Reader} {e : EntryDeltas}
    (h : readIntEntry r = .ok (e, r')) : r.Reaches r' ∧ r.pos < r'.pos := by
  simp only [readIntEntry, bind_eq_ok] at h
  obtain ⟨⟨id, r₁⟩, h₁, ⟨offset, r₂⟩, h₂, ⟨freq, r₃⟩, h₃, h⟩ := h
  cases h
  have reach₁ := Reader.reaches_of_readInt h₁
  have reach := (Reader.reaches_of_readInt h₂).trans (Reader.reaches_of_readInt h₃)
  have lt := reach₁.pos_lt (Reader.length_of_readInt h₁)
  exact ⟨reach₁.trans reach, Nat.lt_of_lt_of_le lt reach.1⟩

open Result in
theorem progress_of_readStringEntry {previous term : Bytes} {r r' : Reader} {e : EntryDeltas}
    (h : readStringEntry previous r = .ok (e, term, r')) : r.Reaches r' ∧ r.pos < r'.pos := by
  simp only [readStringEntry, bind_eq_ok, mapError_eq_ok] at h
  obtain ⟨⟨removed, r₁⟩, h₁, ⟨added, r₂⟩, h₂, h⟩ := h
  split at h
  · exact absurd h throw_ne_ok
  · simp only [bind_eq_ok, mapError_eq_ok] at h
    obtain ⟨⟨suffix, r₃⟩, h₃, ⟨offset, r₄⟩, h₄, ⟨freq, r₅⟩, h₅, h⟩ := h
    cases h
    have reach₁ := Reader.reaches_of_readU64 h₁
    have reach := (Reader.reaches_of_readU64 h₂).trans ((Reader.reaches_of_readBytes h₃).trans
      ((Reader.reaches_of_readInt h₄).trans (Reader.reaches_of_readInt h₅)))
    have lt := reach₁.pos_lt (Reader.length_of_readU64 h₁)
    exact ⟨reach₁.trans reach, Nat.lt_of_lt_of_le lt reach.1⟩

/-- A decoder of a term file: the place of the next entry, and the bytes of the last string term. -/
structure TermDecoder where
  kind : TermKind
  data : Bytes
  pos : Nat
  term : Bytes
  deriving Repr, DecidableEq, Inhabited

namespace TermDecoder

def ofBytes (kind : TermKind) (data : Bytes) : TermDecoder :=
  ⟨kind, data, 0, []⟩

/-- Decodes the entry at the decoder's place, or reports the end of the file there. The decoder
moves only past a complete entry. -/
def next (d : TermDecoder) : Except EntryFault (Option EntryDeltas) × TermDecoder :=
  match Reader.atOffset d.data d.pos with
  | .error f => (.error (.read f), d)
  | .ok r =>
      if r.isEmpty then (.ok none, d)
      else
        match d.kind with
        | .int =>
            match readIntEntry r with
            | .error f => (.error (.read f), d)
            | .ok (entry, r) => (.ok (some entry), { d with pos := r.pos })
        | .string =>
            match readStringEntry d.term r with
            | .error f => (.error f, d)
            | .ok (entry, term, r) => (.ok (some entry), { d with pos := r.pos, term := term })

/-- A complete entry lies within the file and moves the decoder on. -/
theorem progress_of_next {d d' : TermDecoder} {e : EntryDeltas}
    (h : d.next = (.ok (some e), d')) :
    d'.data = d.data ∧ d.pos < d'.pos ∧ d'.pos ≤ d.data.length := by
  simp only [next] at h
  split at h
  · simp at h
  · rename_i r hr
    have start := Reader.atOffset_eq_ok hr
    split at h
    · simp at h
    · split at h
      · split at h
        · simp at h
        · rename_i he
          cases h
          have := progress_of_readIntEntry he
          simp only [Reader.Reaches] at this
          exact ⟨rfl, by simp only; omega, by simp only; omega⟩
      · split at h
        · simp at h
        · rename_i he
          cases h
          have := progress_of_readStringEntry he
          simp only [Reader.Reaches] at this
          exact ⟨rfl, by simp only; omega, by simp only; omega⟩

end TermDecoder
end TermStats
