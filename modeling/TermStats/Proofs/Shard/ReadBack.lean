import TermStats.Proofs.Field.RoundTrip
import TermStats.Proofs.Shard.Opened
import TermStats.Proofs.Storage.Written

/-!
Fields of a shard whose files a writer made. A string field gives back every term that was written,
with its doc ids; so does an int field, unless an id is 2^63 or more above the one before it.
-/

namespace TermStats

open Result

namespace MapCache

theorem get?_insertHost (cache : MapCache) (path : Path) (bytes : Bytes) :
    (cache.insertHost path bytes).get? path = some (.ofHost bytes) := by
  rw [get?, lookup_insertHost, if_pos rfl]

theorem get?_insertHost_of_ne {path other : Path} (h : Path.key other ≠ Path.key path)
    (cache : MapCache) (bytes : Bytes) :
    (cache.insertHost path bytes).get? other = cache.get? other := by
  rw [get?, lookup_insertHost, if_neg h.symm, get?]

end MapCache

/-- The cache with the files of a writer, which the host supplies. -/
def FieldWriter.hostIn (w : FieldWriter) (cache : MapCache) (directory : Path) (name : String) :
    MapCache :=
  (cache.insertHost (termFilePath directory name w.kind) w.terms).insertHost
    (docFilePath directory name w.kind) w.docs

namespace Shard

/-- A shard with a field that was opened over a writer's two files. -/
def Holds (s : Shard) (name : String) (w : FieldWriter) : Prop :=
  ∃ files, s.field name = .ok files ∧ files.kind = w.kind ∧ files.terms.bytes = w.terms ∧
    files.docs.bytes = w.docs

/-- A shard that is opened over a writer's files holds what was written. -/
theorem holds_of_openIn {files : FileTree} {cache : MapCache} {directory : Path} {name : String}
    {intFields stringFields : List String} {table : PackedTable} {s : Shard} {w : FieldWriter}
    (opened : (openIn files (w.hostIn cache directory name) directory intFields stringFields
      table).1 = .ok s)
    (listed : (name, w.kind) ∈ typedFields intFields stringFields)
    (apart : Path.key (termFilePath directory name w.kind) ≠
      Path.key (docFilePath directory name w.kind)) : s.Holds name w := by
  have terms := (MapCache.get?_insertHost_of_ne apart _ w.docs).trans
    (MapCache.get?_insertHost cache _ w.terms)
  have docs := MapCache.get?_insertHost
    (cache.insertHost (termFilePath directory name w.kind) w.terms)
    (docFilePath directory name w.kind) w.docs
  have maps : (w.hostIn cache directory name).MapsField files directory name w.kind
      ((Mapping.ofHost w.terms).bytes, (Mapping.ofHost w.docs).bytes) :=
    ⟨MapCache.maps_of_get? terms files, MapCache.maps_of_get? docs files⟩
  have held := congrArg FieldView.files (view_of_openIn (Prod.ext opened rfl) listed maps)
  rw [Mapping.bytes_ofHost, Mapping.bytes_ofHost] at held
  exact view_files_ok held

/-- All that is read of a field: its terms, each with what is found at the place of its posting
list. -/
def readField (s : Shard) (name : String) (opening : Opening) :
    Except Error (List (Except Error (TermId × List (Except PostingFault Int64)))) := do
  let files ← s.field name
  let cursor ← s.termCursor name opening
  return cursor.contents files.docs.bytes

section ReadBack

variable {s : Shard} {name : String} {kind : TermKind} {calls : List WriterCall}

theorem readField_of_holds (held : s.Holds name ((FieldWriter.ofKind kind).afterCalls calls))
    (short : ((FieldWriter.ofKind kind).afterCalls calls).docs.length < 2 ^ 63)
    (few : ∀ e ∈ (FieldWriter.ofKind kind).written calls, e.2.length ≤ 2147483647)
    (storable : ∀ e ∈ (FieldWriter.ofKind kind).written calls,
      ∀ term ∈ e.1.bytes?, term.length < 2 ^ 64)
    (opening : Opening) :
    ∃ fault? : Option TermFault,
      s.readField name opening =
        .ok ((withinReach none ((FieldWriter.ofKind kind).written calls)).map
            (fun e => .ok (e.1, e.2.map .ok)) ++
          fault?.toList.map (fun f =>
            .error (.invalidFormat (fieldElement s.directory name) f.message))) ∧
      (fault? = none ↔ withinReach none ((FieldWriter.ofKind kind).written calls) =
        (FieldWriter.ofKind kind).written calls) ∧
      ∀ f ∈ fault?, ∃ delta after, f = .negativeId delta after := by
  obtain ⟨files, hfield, hkind, hterms, hdocs⟩ := held
  let file : TermFile := ⟨opening, s.directory, name, files.kind, files.terms.bytes⟩
  have start : (Cursor.ofFile file).Tracks file (.ofKind kind) :=
    Cursor.tracks_ofFile (hkind.trans (FieldWriter.kind_afterCalls _ calls))
  obtain ⟨fault?, hcontents, hall, hfault⟩ := start.contents_eq (FieldWriter.placed_ofKind kind)
    hterms short few storable
  refine ⟨fault?, ?_, hall, hfault⟩
  rw [← hdocs] at hcontents
  simp only [readField, termCursor, hfield, bind, Except.bind, pure, Except.pure]
  exact congrArg _ hcontents

/-- An int field gives back what was written, up to the first id that leaps from the one before it:
there it has a fault. -/
theorem int_field_read_back
    (held : s.Holds name ((FieldWriter.ofKind .int).afterCalls calls))
    (short : ((FieldWriter.ofKind .int).afterCalls calls).docs.length < 2 ^ 63)
    (few : ∀ e ∈ (FieldWriter.ofKind .int).written calls, e.2.length ≤ 2147483647)
    (opening : Opening) :
    let written := (FieldWriter.ofKind .int).written calls
    ∃ fault? : Option TermFault,
      s.readField name opening =
        .ok ((withinReach none written).map (fun e => .ok (e.1, e.2.map .ok)) ++
          fault?.toList.map (fun f =>
            .error (.invalidFormat (fieldElement s.directory name) f.message))) ∧
      (fault? = none ↔ withinReach none written = written) ∧
      ∀ f ∈ fault?, ∃ delta after, f = .negativeId delta after := by
  refine readField_of_holds held short few (fun e he term hterm => ?_) opening
  have kind := FieldWriter.kind_of_written he
  cases hid : e.1 with
  | int v =>
      rw [hid] at hterm
      cases hterm
  | bytes b =>
      rw [hid] at kind
      cases kind

/-- Calls on an int field. Four are rejected, one of which leaves a posting list behind, and the
last id is 2^63 above the one before it. -/
def leapingCalls : List WriterCall :=
  [.docs [4], .intTerm (-5) [0, 7], .intTerm (-5) [1], .stringTerm [97] [3], .intTerm 3 [],
    .intTerm (-1) [2], .docs [2, 1], .intTerm 9223372036854775807 [1]]

theorem int_field_read_back_leaping :
    let w := (FieldWriter.ofKind .int).afterCalls leapingCalls
    let written := (FieldWriter.ofKind .int).written leapingCalls
    written = [(.int (-5), [0, 7]), (.int (-1), [2]), (.int 9223372036854775807, [1])] ∧
      w.docs.length < 2 ^ 63 ∧ (∀ e ∈ written, e.2.length ≤ 2147483647) ∧
      ∃ s fault, (openIn .empty (w.hostIn .empty "s" "x") "s" ["x"] [] noTable).1 = .ok s ∧
        s.Holds "x" w ∧
        s.readField "x" ⟨0, 0⟩ = .ok [.ok (.int (-5), [.ok 0, .ok 7]), .ok (.int (-1), [.ok 2]),
          .error (.invalidFormat (fieldElement s.directory "x") fault)] := by
  intro w written
  have short : w.docs.length < 2 ^ 63 := by decide +kernel
  have few : ∀ e ∈ written, e.2.length ≤ 2147483647 := by decide +kernel
  have reach : withinReach none ((FieldWriter.ofKind .int).written leapingCalls) =
      [(.int (-5), [0, 7]), (.int (-1), [2])] := by decide +kernel
  obtain ⟨s, opened⟩ : ∃ s, (openIn .empty (w.hostIn .empty "s" "x") "s" ["x"] [] noTable).1 =
      .ok s := exists_of_isOk (by decide +kernel)
  have held : s.Holds "x" w := holds_of_openIn opened List.mem_cons_self (by decide +kernel)
  obtain ⟨fault?, hread, hall, _⟩ := int_field_read_back held short few ⟨0, 0⟩
  cases fault? with
  | none => exact absurd (hall.mp rfl) (by decide +kernel)
  | some f =>
      refine ⟨by decide +kernel, short, few, s, f.message, opened, held, ?_⟩
      rw [hread, reach]
      rfl

/-- A string field gives back what was written. A byte string has a length that a machine word can
hold. -/
theorem string_field_read_back
    (held : s.Holds name ((FieldWriter.ofKind .string).afterCalls calls))
    (short : ((FieldWriter.ofKind .string).afterCalls calls).docs.length < 2 ^ 63)
    (few : ∀ e ∈ (FieldWriter.ofKind .string).written calls, e.2.length ≤ 2147483647)
    (storable : ∀ e ∈ (FieldWriter.ofKind .string).written calls,
      ∀ term ∈ e.1.bytes?, term.length < 2 ^ 64)
    (opening : Opening) :
    s.readField name opening =
      .ok (((FieldWriter.ofKind .string).written calls).map fun e => .ok (e.1, e.2.map .ok)) := by
  obtain ⟨fault?, hread, hall, _⟩ := readField_of_holds held short few storable opening
  have strings : ∀ e ∈ (FieldWriter.ofKind .string).written calls, e.1.kind = .string :=
    fun e he => FieldWriter.kind_of_written he
  have all : withinReach none ((FieldWriter.ofKind .string).written calls) = _ :=
    withinReach_of_bytes strings
  rw [hread, hall.mpr all, all]
  simp

/-- Calls on a string field: an empty string, one that another starts with, and bytes that are no
text. Three are rejected, of which one leaves a posting list behind. -/
def stringCalls : List WriterCall :=
  [.stringTerm [] [5], .intTerm 3 [1], .stringTerm [97] [0, 2], .stringTerm [] [1],
    .stringTerm [97, 255] [9, 8], .stringTerm [97, 255] [8, 9], .docs [1], .stringTerm [98] [0]]

theorem string_field_read_back_sample :
    let w := (FieldWriter.ofKind .string).afterCalls stringCalls
    let written := (FieldWriter.ofKind .string).written stringCalls
    w.docs.length < 2 ^ 63 ∧ (∀ e ∈ written, e.2.length ≤ 2147483647) ∧
      (∀ e ∈ written, ∀ term ∈ e.1.bytes?, term.length < 2 ^ 64) ∧
      ∃ s, (openIn .empty (w.hostIn .empty "s" "x") "s" [] ["x"] noTable).1 = .ok s ∧
        s.Holds "x" w ∧
        s.readField "x" ⟨0, 0⟩ = .ok [.ok (.bytes [], [.ok 5]), .ok (.bytes [97], [.ok 0, .ok 2]),
          .ok (.bytes [97, 255], [.ok 8, .ok 9]), .ok (.bytes [98], [.ok 0])] := by
  intro w written
  have short : w.docs.length < 2 ^ 63 := by decide +kernel
  have few : ∀ e ∈ written, e.2.length ≤ 2147483647 := by decide +kernel
  have storable : ∀ e ∈ written, ∀ term ∈ e.1.bytes?, term.length < 2 ^ 64 := by decide +kernel
  obtain ⟨s, opened⟩ : ∃ s, (openIn .empty (w.hostIn .empty "s" "x") "s" [] ["x"] noTable).1 =
      .ok s := exists_of_isOk (by decide +kernel)
  have held : s.Holds "x" w := holds_of_openIn opened List.mem_cons_self (by decide +kernel)
  refine ⟨short, few, storable, s, opened, held, ?_⟩
  rw [string_field_read_back held short few storable ⟨0, 0⟩]
  rfl

end ReadBack

end Shard
end TermStats
