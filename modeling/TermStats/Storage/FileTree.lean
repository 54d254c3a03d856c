import TermStats.Storage.Path
import TermStats.Text.Utf8
import TermStats.Error

/-!
The files and directories below a root. A path is followed name by name from the root or from the
working directory: every name but the last must lead to a directory, and so must the last when a
slash follows it. Above the root there is only the root.
-/

namespace TermStats

/-- The names that lead from the root to a file or directory. -/
abbrev Place := List String

inductive FileFault where
  | notFound
  | notDirectory
  /-- A directory stands where a file was to be written. -/
  | isDirectory
  | nameTooLong
  | nulInPath
  /-- The path leads to a directory, which has no contents to map. -/
  | noContents
  /-- Anything else that a system can say, in its own words. -/
  | other (reason : String)
  deriving Repr, DecidableEq, Inhabited

namespace FileFault

def reason : FileFault → String
  | notFound => "No such file or directory (os error 2)"
  | notDirectory => "Not a directory (os error 20)"
  | isDirectory => "Is a directory (os error 21)"
  | nameTooLong => "File name too long (os error 36)"
  | nulInPath => "file name contained an unexpected NUL byte"
  | noContents => "No such device (os error 19)"
  | other reason => reason

def toError (path : Path) (f : FileFault) : Error :=
  .io path f.reason

end FileFault

/-- What there is to read at each path. -/
abbrev Reading := Path → Except FileFault Bytes

/-- The directories and files below a root. The working directory is there, and so are those it
lies in. -/
structure FileTree where
  workingDirectory : Place
  directories : List Place
  files : List (Place × Bytes)
  deriving Repr, DecidableEq, Inhabited

namespace FileTree

/-- No files, in a root that is the working directory. -/
def empty : FileTree := ⟨[], [], []⟩

def hasDirectory (t : FileTree) (p : Place) : Bool :=
  p.isPrefixOf t.workingDirectory || t.directories.contains p

def contents? (t : FileTree) (p : Place) : Option Bytes :=
  t.files.lookup p

def nameLimit : Nat := 255

def pathLimit : Nat := 4095

/-- A name that leads from a directory to itself. -/
def stays (name : List Char) : Bool :=
  name = [] ∨ name = ['.']

def leadsUp (name : List Char) : Bool :=
  name = ['.', '.']

/-- Follows `names` from `p` on. -/
def walk (t : FileTree) : Place → List (List Char) → Except FileFault Place
  | p, [] => .ok p
  | p, name :: rest =>
      if !t.hasDirectory p then .error .notDirectory
      else if stays name then t.walk p rest
      else if leadsUp name then t.walk p.dropLast rest
      else
        let p' := p ++ [String.ofList name]
        if nameLimit < (String.ofList name).utf8ByteSize then .error .nameTooLong
        else if t.hasDirectory p' || (t.contents? p').isSome then t.walk p' rest
        else .error .notFound

/-- Where a path begins. -/
def start (t : FileTree) (path : Path) : Place :=
  if path.startsWith "/" then [] else t.workingDirectory

/-- The names in a path that can be followed. -/
def namesOf (path : Path) : Except FileFault (List (List Char)) :=
  if path.toList.contains (Char.ofNat 0) then .error .nulInPath
  else if pathLimit < path.utf8ByteSize then .error .nameTooLong
  else if path.isEmpty then .error .notFound
  else .ok (Path.segments path.toList)

/-- The place that `path` leads to. -/
def find (t : FileTree) (path : Path) : Except FileFault Place := do
  t.walk (t.start path) (← namesOf path)

/-- The contents of the file at `path`. -/
def read (t : FileTree) (path : Path) : Except FileFault Bytes := do
  match t.contents? (← t.find path) with
  | some bytes => return bytes
  | none => throw .noContents

/-- The place of a file called `name` in the directory at `p`. -/
def placeIn (t : FileTree) (p : Place) (name : List Char) : Except FileFault Place :=
  let p' := p ++ [String.ofList name]
  if !t.hasDirectory p then .error .notDirectory
  else if stays name || leadsUp name then .error .isDirectory
  else if nameLimit < (String.ofList name).utf8ByteSize then .error .nameTooLong
  else if t.hasDirectory p' then .error .isDirectory
  else .ok p'

def put (t : FileTree) (p : Place) (bytes : Bytes) : FileTree :=
  { t with files := (p, bytes) :: t.files.filter (·.1 ≠ p) }

/-- Writes the file at `path`, in a directory that must be there. -/
def write (t : FileTree) (path : Path) (bytes : Bytes) : Except FileFault FileTree := do
  let names ← namesOf path
  let p ← t.walk (t.start path) names.dropLast
  return t.put (← t.placeIn p (names.getLast?.getD [])) bytes

/-- Makes the directories that `names` pass through, up to one that cannot be made. -/
def makeDirectories (t : FileTree) : Place → List (List Char) → FileTree
  | _, [] => t
  | p, name :: rest =>
      if stays name then t.makeDirectories p rest
      else if leadsUp name then t.makeDirectories p.dropLast rest
      else
        let p' := p ++ [String.ofList name]
        if t.hasDirectory p' then t.makeDirectories p' rest
        else if nameLimit < (String.ofList name).utf8ByteSize || (t.contents? p').isSome then t
        else { t with directories := p' :: t.directories }.makeDirectories p' rest

def addDirectory (t : FileTree) (path : Path) : FileTree :=
  match namesOf path with
  | .ok names => t.makeDirectories (t.start path) names
  | .error _ => t

/-- Makes the directories that a file lies in and puts it there, unless it cannot be written. A
slash or a dot behind its name does not make that a directory. -/
def provide (t : FileTree) (path : Path) (bytes : Bytes) : FileTree :=
  match namesOf path with
  | .ok names =>
      let t := t.makeDirectories (t.start path) (names.filter (!stays ·)).dropLast
      (t.write path bytes).toOption.getD t
  | .error _ => t

/-- Takes away the file at `path`, when there is one. -/
def remove (t : FileTree) (path : Path) : FileTree :=
  match t.find path with
  | .ok p => { t with files := t.files.filter (·.1 ≠ p) }
  | .error _ => t

end FileTree
end TermStats
