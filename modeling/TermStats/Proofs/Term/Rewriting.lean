import TermStats.Proofs.Field.RawEntries
import TermStats.Proofs.Term.CursorGrammar

/-!
A term file written anew from its terms. The accumulated values of the two files are the same behind
each entry, so the entry that is written is the one that was read, in its shortest bytes.
-/

namespace TermStats

open Result

/-- The entry that a term is written as. -/
def Term.pushed (t : Term) : PushedEntry :=
  ⟨t.id, t.offset, t.freq.toInt64⟩

namespace FieldWriter

/-- The writer has written a term last, if any, which its next entry is a difference to. -/
structure Follows (w : FieldWriter) (previous : Option Term) : Prop where
  kind : ∀ last ∈ previous, last.id.kind = w.kind
  id : w.prevId = (previous.bind (·.id.int?)).getD 0
  term : w.prevTerm = lastBytes previous
  offset : w.prevOffset.toInt = previous.elim 0 (·.offset.toInt)

theorem follows_ofKind (kind : TermKind) : (ofKind kind).Follows none :=
  ⟨nofun, rfl, rfl, rfl⟩

namespace Follows

variable {w : FieldWriter} {previous : Option Term} {t : Term} {entry : EntryDeltas}
  {bytes taken : Bytes}

theorem addEntry (follows : w.Follows previous) (kind : t.id.kind = w.kind) :
    (w.addEntry t.pushed).Follows (some t) := by
  have ofKind : ∀ last ∈ some t, last.id.kind = w.kind := by
    rintro _ ⟨⟩
    exact kind
  have alike : ∀ last ∈ previous, last.id.kind = t.id.kind := fun last hlast =>
    (follows.kind last hlast).trans kind.symm
  obtain ⟨id, offset, freq⟩ := t
  -- The value that ids of the other kind leave alone is the one it had before the first term.
  cases id with
  | int id =>
      refine ⟨ofKind, rfl, ?_, rfl⟩
      refine follows.term.trans ?_
      cases previous with
      | none => rfl
      | some last =>
          have alike := alike last rfl
          cases hid : last.id with
          | int _ => simp [lastBytes, hid, TermId.bytes?]
          | bytes _ => rw [hid] at alike; cases alike
  | bytes term =>
      refine ⟨ofKind, ?_, rfl, rfl⟩
      refine follows.id.trans ?_
      cases previous with
      | none => rfl
      | some last =>
          have alike := alike last rfl
          cases hid : last.id with
          | int _ => rw [hid] at alike; cases alike
          | bytes _ => simp [hid, TermId.int?]

/-- What is written for a term is what its entry stored. -/
theorem deltasTo_eq (follows : w.Follows previous)
    (he : IsEntry w.kind (lastBytes previous) taken entry bytes)
    (adds : Adds w.kind previous entry bytes t) : w.deltasTo t.pushed = entry := by
  have offset : t.offset - w.prevOffset = entry.offsetDelta :=
    sub_eq_of_toInt (by rw [adds.offset, follows.offset])
  have docFreq : t.freq.toInt64 = entry.docFreq :=
    Int64.toInt_inj.mp ((Int32.toInt_toInt64 _).trans adds.freq)
  have id : (w.deltasTo t.pushed).idDelta = entry.idDelta := by
    have prevId := follows.id
    have next := adds.id
    generalize w.kind = kind at he next
    obtain ⟨id, _, _⟩ := t
    cases next with
    | firstInt => exact (congrArg _ prevId).trans (Int64.sub_zero _)
    | @int last value id hlast _ sum =>
        rw [Option.bind_some, hlast, TermId.int?, Option.getD_some] at prevId
        exact sub_eq_of_toInt (by rw [prevId, sum])
    | firstString | string => cases he; rfl
  rw [deltasTo, EntryDeltas.mk.injEq]
  exact ⟨id, offset, docFreq⟩

/-- A term's entry is written in the shortest bytes of the one it was read from. -/
theorem entryBytes_eq (follows : w.Follows previous)
    (he : IsEntry w.kind (lastBytes previous) taken entry bytes)
    (adds : Adds w.kind previous entry bytes t) :
    w.entryBytes t.pushed = encodeEntry w.kind (lastBytes previous) entry bytes := by
  have term : t.pushed.id.bytes?.getD w.prevTerm = bytes :=
    (follows.addEntry adds.id.kind_eq).term.trans (adds.lastBytes_eq he)
  rw [entryBytes, term, follows.deltasTo_eq he adds, follows.term]

theorem admits_entryBytes (follows : w.Follows previous) (admits : Admits w.kind previous taken t) :
    Admits w.kind previous (w.entryBytes t.pushed) t ∧
      (w.entryBytes t.pushed).length ≤ taken.length := by
  obtain ⟨entry, bytes, he, adds⟩ := admits
  obtain ⟨he', length_le⟩ := he.shortest
  rw [follows.entryBytes_eq he adds]
  exact ⟨⟨entry, bytes, he', adds⟩, length_le⟩

end Follows

/-- The entries of a file's terms, in their shortest bytes, make a file of the same terms. -/
theorem isTermFile_entriesBytes {kind : TermKind} {previous : Option Term} {bytes : Bytes}
    {ts : List Term} (wellFormed : IsTermFile kind previous bytes ts) {w : FieldWriter}
    (ofKind : w.kind = kind) (follows : w.Follows previous) :
    IsTermFile kind previous (w.entriesBytes (ts.map Term.pushed)) ts ∧
      (w.entriesBytes (ts.map Term.pushed)).length ≤ bytes.length := by
  induction wellFormed generalizing w with
  | nil => exact ⟨.nil, Nat.le_refl _⟩
  | @cons previous taken rest t ts admits _ ih =>
      subst ofKind
      obtain ⟨admits', fewer⟩ := follows.admits_entryBytes admits
      obtain ⟨_, _, _, adds⟩ := admits
      obtain ⟨file, fewer'⟩ := @ih (w.addEntry t.pushed) rfl (follows.addEntry adds.id.kind_eq)
      refine ⟨.cons admits' file, ?_⟩
      rw [List.map_cons, entriesBytes, List.length_append, List.length_append]
      exact Nat.add_le_add fewer fewer'

end FieldWriter

namespace TermFile

/-- The file with the entries of its terms written anew. -/
def rewritten (file : TermFile) : Except WriteFault TermFile := do
  let terms := beforeFault (TermSource.toList (Cursor.ofFile file))
  let (_, w) ← (FieldWriter.ofKind file.kind).pushAll FieldWriter.pushEntry (terms.map Term.pushed)
  return { file with data := w.terms }

variable {file : TermFile} {ts : List Term}

/-- A file that is read without a fault is well formed to its end. -/
theorem isTermFile_of_faultless
    (faultless : firstFault? (TermSource.toList (Cursor.ofFile file)) = none) :
    ∃ ts, IsTermFile file.kind none file.data ts := by
  obtain ⟨before, rest, ts, data, wellFormed, stuck⟩ :=
    exists_isTermFile_stuck file.kind none file.data
  have start := Cursor.stands_ofFile file
  rw [data] at start
  obtain ⟨stands, items⟩ := Cursor.after_of_isTermFile start wellFormed
  obtain ⟨⟨fault?, last, ended⟩, _⟩ := Cursor.ends_of_stuck stands stuck
  rw [items, last, firstFault?_append] at faultless
  cases fault? with
  | none =>
      rw [ended.mp rfl, List.append_nil] at data
      exact ⟨ts, data ▸ wellFormed⟩
  | some f => cases faultless

theorem rewritten_eq (wellFormed : IsTermFile file.kind none file.data ts) :
    file.rewritten = .ok { file with
      data := (FieldWriter.ofKind file.kind).entriesBytes (ts.map Term.pushed) } := by
  have kinds : ∀ e ∈ ts.map Term.pushed, e.id.kind = (FieldWriter.ofKind file.kind).kind := by
    intro e he
    obtain ⟨t, ht, rfl⟩ := List.mem_map.mp he
    exact (wellFormed.mem ht).1
  obtain ⟨units, w, pushed, terms⟩ := FieldWriter.pushAll_pushEntry kinds
  rw [rewritten, Cursor.toList_of_isTermFile wellFormed, beforeFault_map_ok]
  simp only [pushed]
  exact congrArg (fun data => Except.ok { file with data := data }) terms

/-- A file that is read without a fault has one of the same terms that is written from them, is read
without a fault too, is not longer, and stays as it is when it is written anew. -/
theorem rewriting_normalises (file : TermFile)
    (faultless : firstFault? (TermSource.toList (Cursor.ofFile file)) = none) :
    ∃ file', file.rewritten = .ok file' ∧
      TermSource.toList (Cursor.ofFile file') = TermSource.toList (Cursor.ofFile file) ∧
      file'.data.length ≤ file.data.length ∧ file'.rewritten = .ok file' := by
  obtain ⟨ts, wellFormed⟩ := isTermFile_of_faultless faultless
  obtain ⟨wellFormed', fewer⟩ := FieldWriter.isTermFile_entriesBytes wellFormed
    (w := .ofKind file.kind) rfl (FieldWriter.follows_ofKind file.kind)
  let file' := { file with
    data := (FieldWriter.ofKind file.kind).entriesBytes (ts.map Term.pushed) }
  have again : IsTermFile file'.kind none file'.data ts := wellFormed'
  exact ⟨file', rewritten_eq wellFormed,
    (Cursor.toList_of_isTermFile again).trans (Cursor.toList_of_isTermFile wellFormed).symm, fewer,
    rewritten_eq again⟩

/-- A file with a needless byte in a number, and a term that gives up more than it has to. -/
def wasteful : TermFile :=
  ⟨⟨0, 0⟩, "shard", "title", .string, [128, 0, 2, 97, 98, 0, 1, 2, 3, 97, 98, 99, 4, 1]⟩

theorem toList_wasteful : TermSource.toList (Cursor.ofFile wasteful) =
    [.ok ⟨.bytes [97, 98], 0, 1⟩, .ok ⟨.bytes [97, 98, 99], 4, 1⟩] := by
  have first : TermSource.next (Cursor.ofFile wasteful) = (some (.ok ⟨.bytes [97, 98], 0, 1⟩),
      ⟨some wasteful, 7, [97, 98], ⟨.bytes [97, 98], 0, 1⟩, true, false⟩) := rfl
  have second : TermSource.next (⟨some wasteful, 7, [97, 98], ⟨.bytes [97, 98], 0, 1⟩, true,
      false⟩ : Cursor) = (some (.ok ⟨.bytes [97, 98, 99], 4, 1⟩),
        ⟨some wasteful, 14, [97, 98, 99], ⟨.bytes [97, 98, 99], 4, 1⟩, true, false⟩) := rfl
  rw [TermSource.toList_of_some first, TermSource.toList_of_some second,
    TermSource.toList_of_none rfl]

theorem rewriting_normalises_wasteful : ∃ file, wasteful.rewritten = .ok file ∧
    file.data = [0, 2, 97, 98, 0, 1, 0, 1, 99, 4, 1] ∧
    TermSource.toList (Cursor.ofFile file) =
      [.ok ⟨.bytes [97, 98], 0, 1⟩, .ok ⟨.bytes [97, 98, 99], 4, 1⟩] ∧
    file.data.length ≤ wasteful.data.length ∧ file.rewritten = .ok file := by
  have faultless : firstFault? (TermSource.toList (Cursor.ofFile wasteful)) = none := by
    rw [toList_wasteful]
    rfl
  obtain ⟨file, rewritten, same, fewer, stays⟩ := rewriting_normalises wasteful faultless
  have written : wasteful.rewritten = .ok { wasteful with
      data := [0, 2, 97, 98, 0, 1, 0, 1, 99, 4, 1] } := by
    rw [TermFile.rewritten, toList_wasteful]
    exact ok_of_toOption (by decide +kernel)
  cases rewritten.symm.trans written
  exact ⟨_, written, rfl, same.trans toList_wasteful, fewer, stays⟩

end TermFile
end TermStats
