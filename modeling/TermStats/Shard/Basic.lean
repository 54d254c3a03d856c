import TermStats.Storage.MapCache
import TermStats.Storage.Table
import TermStats.Term.Cursor

/-!
Shards: a directory of field files, mapped through the shared cache when the shard is
opened, and the table of its documents.
-/

namespace TermStats

/-- The mapped files of one field. -/
structure FieldFiles where
  name : String
  kind : TermKind
  terms : Mapping
  docs : Mapping
  deriving Repr, DecidableEq, Inhabited

structure Shard where
  directory : Path
  intFields : List String
  stringFields : List String
  fields : List FieldFiles
  table : PackedTable
  deriving Inhabited

inductive ShardFault where
  | unknownField (field : String) (directory : Path)
  | repeatedField (field : String)
  deriving Repr, DecidableEq, Inhabited

def ShardFault.toError : ShardFault → Error
  | unknownField field directory =>
      .invalidArgument "field" s!"'{field}' is not a field of shard {directory}"
  | repeatedField field =>
      .invalidArgument "fields" s!"field '{field}' is listed more than once"

namespace Shard

/-- Maps the files of the fields still to come, in order. What was mapped before a failure stays in
the cache. -/
def mapFields (files : FileTree) (directory : Path) (cache : MapCache) (opened : List FieldFiles) :
    List (String × TermKind) → Except Error (List FieldFiles) × MapCache
  | [] => (.ok opened, cache)
  | (name, kind) :: rest =>
      if opened.any (·.name = name) then (.error (ShardFault.repeatedField name).toError, cache)
      else
        match cache.getOrMap files.read (termFilePath directory name kind) with
        | (.error e, cache) => (.error e, cache)
        | (.ok terms, cache) =>
            match cache.getOrMap files.read (docFilePath directory name kind) with
            | (.error e, cache) => (.error e, cache)
            | (.ok docs, cache) =>
                mapFields files directory cache (opened ++ [⟨name, kind, terms, docs⟩]) rest

/-- Int fields come before string fields. -/
def typedFields (intFields stringFields : List String) : List (String × TermKind) :=
  intFields.map (·, .int) ++ stringFields.map (·, .string)

def openIn (files : FileTree) (cache : MapCache) (directory : Path)
    (intFields stringFields : List String) (table : PackedTable) :
    Except Error Shard × MapCache :=
  let (x, cache) := mapFields files directory cache [] (typedFields intFields stringFields)
  (x.map fun fields => ⟨directory, intFields, stringFields, fields, table⟩, cache)

/-- The table of a shard that was given none. -/
def noTable : PackedTable :=
  (MemoryTable.zeros 0 0).packed

def field (s : Shard) (name : String) : Except Error FieldFiles :=
  match s.fields.find? (·.name = name) with
  | some f => .ok f
  | none => .error (ShardFault.unknownField name s.directory).toError

def termCursor (s : Shard) (name : String) (opening : Opening) : Except Error Cursor := do
  let f ← s.field name
  return .ofFile ⟨opening, s.directory, name, f.kind, f.terms.bytes⟩

def debugNames (names : List String) : String :=
  "[" ++ ", ".intercalate (names.map Text.quote) ++ "]"

def debugText (s : Shard) : String :=
  let ints := debugNames s.intFields
  let strings := debugNames s.stringFields
  s!"Shard \x7b directory: {Text.quote s.directory}, int_fields: {ints}, " ++
    s!"string_fields: {strings}, .. \x7d"

end Shard
end TermStats
