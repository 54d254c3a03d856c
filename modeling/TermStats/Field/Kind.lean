import TermStats.Storage.Path

/-!
The two kinds of fields, and the names of the two files that hold a field: its terms
and its doc ids.
-/

namespace TermStats

inductive TermKind where
  | string
  | int
  deriving Repr, DecidableEq, Inhabited

namespace TermKind

def name : TermKind → String
  | string => "string"
  | int => "int"

/-- The byte that stands for the kind in an output stream. -/
def wireTag : TermKind → UInt8
  | string => 0
  | int => 1

def ofWireTag? (tag : UInt8) : Option TermKind :=
  if tag = 0 then some string
  else if tag = 1 then some int
  else none

def termExtension : TermKind → String
  | int => "intterms"
  | string => "strterms"

def docExtension : TermKind → String
  | int => "intdocs"
  | string => "strdocs"

theorem ofWireTag?_wireTag (k : TermKind) : ofWireTag? k.wireTag = some k := by
  cases k <;> rfl

theorem eq_of_ofWireTag? {tag : UInt8} {k : TermKind} (h : ofWireTag? tag = some k) :
    tag = k.wireTag := by
  simp only [ofWireTag?] at h
  split at h
  · cases h; assumption
  · split at h
    · cases h; assumption
    · cases h

end TermKind

def termFilePath (dir : Path) (field : String) (kind : TermKind) : Path :=
  dir.join s!"fld-{field}.{kind.termExtension}"

def docFilePath (dir : Path) (field : String) (kind : TermKind) : Path :=
  dir.join s!"fld-{field}.{kind.docExtension}"

end TermStats
