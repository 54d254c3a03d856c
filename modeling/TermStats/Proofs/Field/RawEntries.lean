import TermStats.Proofs.Field.Decoding
import TermStats.Proofs.Field.ShortestEntry
import TermStats.Shard.Directory
import TermStats.Term.Basic

/-!
Entries that are written as they are given, in any order and with any numbers. Nothing of them is
lost: the decoder reads back each of them, and the sums of what it reads are what was given.
-/

namespace TermStats

open Result

/-- An entry as it is given to a writer, whether or not it makes sense in its place. -/
structure PushedEntry where
  id : TermId
  offset : Int64
  docFreq : Int64
  deriving Repr, DecidableEq

namespace FieldWriter

/-- Appends an entry of either kind. -/
def pushEntry (w : FieldWriter) (e : PushedEntry) : Except WriteFault Unit × FieldWriter :=
  match e.id with
  | .int id => w.pushIntEntry id e.offset e.docFreq
  | .bytes term => w.pushStringEntry term e.offset e.docFreq

/-- What the next entry stores. -/
def deltasTo (w : FieldWriter) (e : PushedEntry) : EntryDeltas where
  idDelta :=
    match e.id with
    | .int id => id - w.prevId
    | .bytes _ => 0
  offsetDelta := e.offset - w.prevOffset
  docFreq := e.docFreq

def entryBytes (w : FieldWriter) (e : PushedEntry) : Bytes :=
  encodeEntry w.kind w.prevTerm (w.deltasTo e) (e.id.bytes?.getD w.prevTerm)

/-- The writer with one more entry. -/
def addEntry (w : FieldWriter) (e : PushedEntry) : FieldWriter :=
  { w with
    terms := w.terms ++ w.entryBytes e
    prevId := e.id.int?.getD w.prevId
    prevTerm := e.id.bytes?.getD w.prevTerm
    prevOffset := e.offset
    count := w.count + 1 }

/-- The bytes of some entries, one after the other. -/
def entriesBytes (w : FieldWriter) : List PushedEntry → Bytes
  | [] => []
  | e :: rest => w.entryBytes e ++ (w.addEntry e).entriesBytes rest

/-- A writer takes every entry of its kind. -/
theorem pushEntry_eq {w : FieldWriter} {e : PushedEntry} (kind : e.id.kind = w.kind) :
    w.pushEntry e = (.ok (), w.addEntry e) := by
  obtain ⟨id, offset, docFreq⟩ := e
  cases id with
  | int id =>
      have kind : w.kind = .int := kind.symm
      simp [pushEntry, pushIntEntry, kind, addEntry, entryBytes, encodeEntry, deltasTo,
        TermId.int?, TermId.bytes?]
  | bytes term =>
      have kind : w.kind = .string := kind.symm
      simp [pushEntry, pushStringEntry, kind, addEntry, entryBytes, encodeEntry, deltasTo,
        TermId.int?, TermId.bytes?]

theorem pushAll_cons_iff {α β : Type} {push : FieldWriter → α → Except WriteFault β × FieldWriter}
    {w w' : FieldWriter} {a : α} {rest : List α} {results : List β} :
    w.pushAll push (a :: rest) = .ok (results, w') ↔ ∃ b w₁ others,
      push w a = (.ok b, w₁) ∧ w₁.pushAll push rest = .ok (others, w') ∧ results = b :: others := by
  rw [pushAll]
  rcases push w a with ⟨f | b, w₁⟩
  · exact ⟨nofun, nofun⟩
  · simp only [bind_eq_ok, pure_eq_ok]
    constructor
    · rintro ⟨⟨others, _⟩, pushed, h⟩
      cases h
      exact ⟨b, w₁, others, rfl, pushed, rfl⟩
    · rintro ⟨_, _, others, h, pushed, rfl⟩
      cases h
      exact ⟨(others, w'), pushed, rfl⟩

theorem pushAll_pushEntry {entries : List PushedEntry} {w : FieldWriter}
    (kinds : ∀ e ∈ entries, e.id.kind = w.kind) :
    ∃ units w', w.pushAll pushEntry entries = .ok (units, w') ∧
      w'.terms = w.terms ++ w.entriesBytes entries := by
  induction entries generalizing w with
  | nil => exact ⟨[], w, rfl, (List.append_nil _).symm⟩
  | cons e rest ih =>
      obtain ⟨kind, kinds⟩ := List.forall_mem_cons.mp kinds
      obtain ⟨units, w', pushed, terms⟩ := @ih (w.addEntry e) kinds
      refine ⟨() :: units, w', ?_, ?_⟩
      · exact pushAll_cons_iff.mpr ⟨(), _, units, pushEntry_eq kind, pushed, rfl⟩
      · rw [terms, entriesBytes, ← List.append_assoc]
        rfl

theorem isEntry_entryBytes {w : FieldWriter} {e : PushedEntry} (kind : e.id.kind = w.kind)
    (short : w.prevTerm.length < 2 ^ 64) (storable : ∀ term ∈ e.id.bytes?, term.length < 2 ^ 64) :
    IsEntry w.kind w.prevTerm (w.entryBytes e) (w.deltasTo e) (w.addEntry e).prevTerm := by
  obtain ⟨id, offset, docFreq⟩ := e
  rw [entryBytes, ← kind]
  cases id with
  | int id => exact isEntry_encodeEntry_int _ _ _
  | bytes term =>
      have fits := storable term rfl
      exact isEntry_encodeEntry_string (Nat.lt_of_le_of_lt (Nat.sub_le _ _) short)
        (Nat.lt_of_le_of_lt (Nat.sub_le _ _) fits) _ _

theorem length_prevTerm_addEntry {w : FieldWriter} {e : PushedEntry}
    (short : w.prevTerm.length < 2 ^ 64) (storable : ∀ term ∈ e.id.bytes?, term.length < 2 ^ 64) :
    (w.addEntry e).prevTerm.length < 2 ^ 64 := by
  obtain ⟨id, offset, docFreq⟩ := e
  cases id with
  | int id => exact short
  | bytes term => exact storable term rfl

/-- Int ids and offsets are the sums of what is stored. -/
theorem add_deltasTo (w : FieldWriter) (e : PushedEntry) :
    w.prevId + (w.deltasTo e).idDelta = (w.addEntry e).prevId ∧
      w.prevOffset + (w.deltasTo e).offsetDelta = (w.addEntry e).prevOffset := by
  have sum (a b : Int64) : a + (b - a) = b := by rw [Int64.add_comm, Int64.sub_add_cancel]
  refine ⟨?_, sum _ _⟩
  obtain ⟨id, offset, docFreq⟩ := e
  cases id with
  | int id => exact sum _ _
  | bytes term => exact Int64.add_zero _

end FieldWriter

namespace TermDecoder

/-- The id of the last entry: a sum of deltas, or the string term that the decoder holds. -/
def heldId (d : TermDecoder) (sum : Int64) : TermId :=
  match d.kind with
  | .int => .int sum
  | .string => .bytes d.term

/-- All entries up to the end of the file. Ids and offsets are added up from those of the entry
before, and wrap around. -/
def readAll (d : TermDecoder) (id offset : Int64) : Except EntryFault (List PushedEntry) :=
  match _h : d.next with
  | (.error f, _) => .error f
  | (.ok none, _) => .ok []
  | (.ok (some entry), d') => do
      let rest ← d'.readAll (id + entry.idDelta) (offset + entry.offsetDelta)
      return ⟨d'.heldId (id + entry.idDelta), offset + entry.offsetDelta, entry.docFreq⟩ :: rest
termination_by d.data.length - d.pos
decreasing_by
  obtain ⟨sameData, further, within⟩ := progress_of_next _h
  rw [sameData]
  omega

variable {d d' : TermDecoder} {w : FieldWriter} {e : PushedEntry} {rest : Bytes}

theorem readAll_of_none (h : d.next = (.ok none, d')) (id offset : Int64) :
    d.readAll id offset = .ok [] := by
  rw [readAll]
  split <;> rename_i hn <;> rw [h] at hn <;> cases hn

theorem readAll_of_some {entry : EntryDeltas} (h : d.next = (.ok (some entry), d'))
    (id offset : Int64) : d.readAll id offset = do
      let rest ← d'.readAll (id + entry.idDelta) (offset + entry.offsetDelta)
      return ⟨d'.heldId (id + entry.idDelta), offset + entry.offsetDelta, entry.docFreq⟩ :: rest := by
  rw [readAll]
  split <;> rename_i hn <;> rw [h] at hn <;> cases hn
  rfl

/-- The decoder stands where a writer stood, with `rest` still to be read. -/
structure Behind (d : TermDecoder) (w : FieldWriter) (rest : Bytes) : Prop where
  kind : d.kind = w.kind
  term : d.term = w.prevTerm
  within : d.pos ≤ d.data.length
  remains : d.data.drop d.pos = rest

theorem behind_ofBytes (kind : TermKind) (data : Bytes) :
    (ofBytes kind data).Behind (.ofKind kind) data :=
  ⟨rfl, rfl, Nat.zero_le _, rfl⟩

theorem Behind.next_eq (behind : d.Behind w (w.entryBytes e ++ rest))
    (entry : IsEntry w.kind w.prevTerm (w.entryBytes e) (w.deltasTo e) (w.addEntry e).prevTerm) :
    ∃ d', d.next = (.ok (some (w.deltasTo e)), d') ∧ d'.Behind (w.addEntry e) rest := by
  obtain ⟨kind, term, within, remains⟩ := behind
  rw [← kind, ← term] at entry
  refine ⟨d.past (w.entryBytes e) (w.addEntry e).prevTerm,
    (next_eq_some_iff within).mpr ⟨_, rest, _, remains, entry, rfl⟩, kind, rfl,
    past_le remains entry, ?_⟩
  rw [past, ← List.drop_drop, remains, List.drop_left]

theorem Behind.heldId_eq (behind : d.Behind (w.addEntry e) rest) (kind : e.id.kind = w.kind) :
    d.heldId (w.addEntry e).prevId = e.id := by
  have ofKind : d.kind = e.id.kind := behind.kind.trans kind.symm
  rw [heldId, ofKind, behind.term]
  obtain ⟨id, offset, docFreq⟩ := e
  cases id <;> rfl

/-- A decoder that stands where a writer stood reads what is written from there on. -/
theorem Behind.readAll_eq {entries : List PushedEntry} (behind : d.Behind w (w.entriesBytes entries))
    (kinds : ∀ e ∈ entries, e.id.kind = w.kind) (short : w.prevTerm.length < 2 ^ 64)
    (storable : ∀ e ∈ entries, ∀ term ∈ e.id.bytes?, term.length < 2 ^ 64) :
    d.readAll w.prevId w.prevOffset = .ok entries := by
  induction entries generalizing d w with
  | nil =>
      have ended : d.next.1 = .ok none :=
        (next_eq_none_iff d.kind d.term behind.within).mpr behind.remains
      exact readAll_of_none (Prod.ext ended rfl) _ _
  | cons e rest ih =>
      obtain ⟨kind, kinds⟩ := List.forall_mem_cons.mp kinds
      obtain ⟨storable_e, storable⟩ := List.forall_mem_cons.mp storable
      obtain ⟨d', hnext, behind'⟩ :=
        behind.next_eq (FieldWriter.isEntry_entryBytes kind short storable_e)
      have short' := FieldWriter.length_prevTerm_addEntry short storable_e
      -- The sums are now those that the writer keeps, so the rest is read as it is written.
      obtain ⟨id_sum, offset_sum⟩ := w.add_deltasTo e
      rw [readAll_of_some hnext, id_sum, offset_sum, behind'.heldId_eq kind,
        ih behind' kinds short' storable]
      rfl

/-- Whatever entries of one kind are given to a new writer, it takes them all, and its term file is
read back to its end as just these. A byte string has a length that a machine word can hold. -/
theorem pushed_entries_read_back (kind : TermKind) (entries : List PushedEntry)
    (kinds : ∀ e ∈ entries, e.id.kind = kind)
    (storable : ∀ e ∈ entries, ∀ term ∈ e.id.bytes?, term.length < 2 ^ 64) :
    ∃ units w, (FieldWriter.ofKind kind).pushAll FieldWriter.pushEntry entries = .ok (units, w) ∧
      (ofBytes kind w.terms).readAll 0 0 = .ok entries := by
  obtain ⟨units, w, pushed, terms⟩ :=
    FieldWriter.pushAll_pushEntry (w := .ofKind kind) kinds
  refine ⟨units, w, pushed, ?_⟩
  have behind := behind_ofBytes kind w.terms
  rw [show w.terms = (FieldWriter.ofKind kind).entriesBytes entries from terms] at behind ⊢
  exact behind.readAll_eq kinds (Nat.two_pow_pos 64) storable

theorem pushed_entries_read_back_extreme :
    (∃ units w, (FieldWriter.ofKind .int).pushAll FieldWriter.pushEntry
        [⟨.int Int64.maxValue, -1, 0⟩, ⟨.int Int64.minValue, Int64.minValue, -5⟩,
          ⟨.int Int64.minValue, Int64.maxValue, Int64.maxValue⟩] = .ok (units, w) ∧
      (ofBytes .int w.terms).readAll 0 0 = .ok
        [⟨.int Int64.maxValue, -1, 0⟩, ⟨.int Int64.minValue, Int64.minValue, -5⟩,
          ⟨.int Int64.minValue, Int64.maxValue, Int64.maxValue⟩]) ∧
    ∃ units w, (FieldWriter.ofKind .string).pushAll FieldWriter.pushEntry
        [⟨.bytes [7, 255, 7], 4, 1⟩, ⟨.bytes [7, 255], 4, 1⟩, ⟨.bytes [], Int64.minValue, -1⟩,
          ⟨.bytes [], 0, 0⟩, ⟨.bytes [9], 0, 0⟩] = .ok (units, w) ∧
      (ofBytes .string w.terms).readAll 0 0 = .ok
        [⟨.bytes [7, 255, 7], 4, 1⟩, ⟨.bytes [7, 255], 4, 1⟩, ⟨.bytes [], Int64.minValue, -1⟩,
          ⟨.bytes [], 0, 0⟩, ⟨.bytes [9], 0, 0⟩] :=
  ⟨pushed_entries_read_back .int _ (by decide) (by decide),
    pushed_entries_read_back .string _ (by decide) (by decide)⟩

end TermDecoder
end TermStats
