import TermStats.Storage.FileTree

/-!
The cache of mapped files, shared by all shards of a run. A file is mapped when its
path is first asked for and stays as it was then; a region that the host supplies
replaces whatever its path had.
-/

namespace TermStats

/-- Bytes mapped for a path. Only mappings made by the cache are owned by it, and the empty region
is nobody's. -/
inductive Mapping where
  | owned (bytes : Bytes)
  | host (bytes : Bytes)
  | empty
  deriving Repr, DecidableEq, Inhabited

namespace Mapping

def bytes : Mapping → Bytes
  | owned bs => bs
  | host bs => bs
  | empty => []

def isOwned : Mapping → Bool
  | owned _ => true
  | _ => false

def ofFile (bs : Bytes) : Mapping :=
  if bs.isEmpty then empty else owned bs

def ofHost (bs : Bytes) : Mapping :=
  if bs.isEmpty then empty else host bs

theorem bytes_ofFile (bs : Bytes) : (ofFile bs).bytes = bs := by
  cases bs <;> rfl

theorem bytes_ofHost (bs : Bytes) : (ofHost bs).bytes = bs := by
  cases bs <;> rfl

def debugText (m : Mapping) : String :=
  let kind := match m with
    | owned _ => "owned"
    | host _ => "host"
    | empty => "empty"
  s!"Mapping \x7b kind: \"{kind}\", len: {m.bytes.length} \x7d"

end Mapping

/-- The mappings by the components of their paths. -/
structure MapCache where
  entries : List (Path.Key × Mapping)
  deriving Repr, DecidableEq, Inhabited

namespace MapCache

def empty : MapCache := ⟨[]⟩

def get? (c : MapCache) (path : Path) : Option Mapping :=
  c.entries.lookup (Path.key path)

def insertHost (c : MapCache) (path : Path) (bytes : Bytes) : MapCache :=
  let key := Path.key path
  ⟨(key, .ofHost bytes) :: c.entries.filter (·.1 ≠ key)⟩

/-- The mapping of `path`, made from the file that is read there when the cache has none. -/
def getOrMap (c : MapCache) (read : Reading) (path : Path) : Except Error Mapping × MapCache :=
  match c.get? path with
  | some m => (.ok m, c)
  | none =>
      match read path with
      | .error f => (.error (f.toError path), c)
      | .ok bytes => (.ok (.ofFile bytes), ⟨(Path.key path, .ofFile bytes) :: c.entries⟩)

def size (c : MapCache) : Nat :=
  c.entries.length

def isEmpty (c : MapCache) : Bool :=
  c.entries.isEmpty

def ownedCount (c : MapCache) : Nat :=
  c.entries.countP (·.2.isOwned)

def debugText (c : MapCache) : String :=
  s!"MapCache \x7b len: {c.size}, .. \x7d"

def debugEntry (c : MapCache) (path : Path) : String :=
  match c.get? path with
  | some m => s!"Some({m.debugText})"
  | none => "None"

end MapCache
end TermStats
