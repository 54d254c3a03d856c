/-!
File paths, kept in the spelling they were given. Two spellings name the same cache
entry when their components agree: repeated and trailing slashes and inner `.`
components do not count, a leading `.` does.
-/

namespace TermStats

abbrev Path := String

namespace Path

/-- The path of `name` inside directory `dir`. The empty directory is the current one. -/
def join (dir : Path) (name : String) : Path :=
  if dir.isEmpty then name
  else if dir.endsWith "/" then dir ++ name
  else dir ++ "/" ++ name

/-- The parts between slashes, empty ones included. -/
def segments : List Char → List (List Char)
  | [] => [[]]
  | c :: cs =>
      if c = '/' then [] :: segments cs
      else
        match segments cs with
        | [] => [[c]]
        | s :: ss => (c :: s) :: ss

/-- What two spellings of one path have in common. -/
structure Key where
  absolute : Bool
  components : List String
  deriving Repr, DecidableEq, Inhabited

def key (path : Path) : Key :=
  let parts := segments path.toList
  let absolute := path.startsWith "/"
  let leadingDot := match parts with
    | first :: _ => first == ['.']
    | [] => false
  let named := (parts.filter fun s => s ≠ [] ∧ s ≠ ['.']).map String.ofList
  ⟨absolute, if leadingDot then "." :: named else named⟩

end Path
end TermStats
