import TermStats.Field.Writer
import TermStats.Storage.FileTree

/-!
Shard directories made from lists of terms, for trying things out. A field that cannot
be written leaves the directory as it was.
-/

namespace TermStats

/-- An int term entry as it is to stand in the file, whether or not it makes sense there. -/
structure RawEntry where
  id : Int64
  offset : Int64
  docFreq : Int64
  deriving Repr, DecidableEq, Inhabited

namespace FieldWriter

/-- Applies `push` to each item, up to the first that is refused. -/
def pushAll {α β : Type} (push : FieldWriter → α → Except WriteFault β × FieldWriter)
    (w : FieldWriter) : List α → Except WriteFault (List β × FieldWriter)
  | [] => .ok ([], w)
  | a :: rest =>
      match push w a with
      | (.error f, _) => .error f
      | (.ok b, w) => do
          let (bs, w) ← pushAll push w rest
          return (b :: bs, w)

/-- Writes both files of `field` into a directory, which must be there. -/
def writeTo (w : FieldWriter) (files : FileTree) (directory : Path) (field : String) :
    Except Error FileTree := do
  let terms := termFilePath directory field w.kind
  let docs := docFilePath directory field w.kind
  let files ← (files.write terms w.terms).mapError (·.toError terms)
  (files.write docs w.docs).mapError (·.toError docs)

end FieldWriter

namespace ShardDirectory

open FieldWriter (pushDocs)

def addIntField (files : FileTree) (directory : Path) (field : String)
    (terms : List (Int64 × List Int64)) : Except Error FileTree := do
  let push (w : FieldWriter) (t : Int64 × List Int64) := w.pushIntTerm t.1 t.2
  let (_, w) ← ((FieldWriter.ofKind .int).pushAll push terms).mapError (·.toError)
  w.writeTo files directory field

def addStringField (files : FileTree) (directory : Path) (field : String)
    (terms : List (Bytes × List Int64)) : Except Error FileTree := do
  let push (w : FieldWriter) (t : Bytes × List Int64) := w.pushStringTerm t.1 t.2
  let (_, w) ← ((FieldWriter.ofKind .string).pushAll push terms).mapError (·.toError)
  w.writeTo files directory field

/-- An int field of entries as given, with posting lists back to back in its doc-id file. -/
def addIntEntries (files : FileTree) (directory : Path) (field : String)
    (entries : List RawEntry) (postings : List (List Int64)) : Except Error FileTree := do
  let push (w : FieldWriter) (e : RawEntry) := w.pushIntEntry e.id e.offset e.docFreq
  let (_, w) ← ((FieldWriter.ofKind .int).pushAll pushDocs postings).mapError (·.toError)
  let (_, w) ← (w.pushAll push entries).mapError (·.toError)
  w.writeTo files directory field

/-- A field with any bytes as its term file, and an empty doc-id file. -/
def addRaw (files : FileTree) (directory : Path) (field : String) (kind : TermKind)
    (terms : Bytes) : Except Error FileTree := do
  let write (files : FileTree) (path : Path) (bytes : Bytes) :=
    (files.write path bytes).mapError (.ofSystem ·.reason)
  write (← write files (termFilePath directory field kind) terms)
    (docFilePath directory field kind) []

/-- Where posting lists start when they are written back to back. -/
def postingOffsets (postings : List (List Int64)) : Except WriteFault (List Int64) := do
  let (offsets, _) ← (FieldWriter.ofKind .int).pushAll pushDocs postings
  return offsets

end ShardDirectory
end TermStats
