/-!
JSON texts, as far as settings need them. Reading keeps what a reader of settings asks
about a value: its shape, a number only when it is written as a natural number, and a
string only when its escapes denote text. Printing puts two spaces before each level.
-/

namespace TermStats.Json

inductive Value where
  | null
  | bool (b : Bool)
  /-- A number, with its value when it has no sign, fraction or exponent. -/
  | number (natural : Option Nat)
  /-- A string, with its text unless it has an unpaired surrogate. -/
  | string (text : Option String)
  | array (items : List Value)
  | object (members : List (Option String × Value))
  deriving Repr, Inhabited

inductive Token where
  | openArray
  | closeArray
  | openObject
  | closeObject
  | comma
  | colon
  | scalar (v : Value)
  deriving Repr, Inhabited

/-- A character of a string, or the code unit that an escape gives. -/
inductive Piece where
  | char (c : Char)
  | unit (n : Nat)
  deriving Repr, DecidableEq, Inhabited

def hexValue? (c : Char) : Option Nat :=
  if '0' ≤ c ∧ c ≤ '9' then some (c.toNat - 48)
  else if 'a' ≤ c ∧ c ≤ 'f' then some (c.toNat - 87)
  else if 'A' ≤ c ∧ c ≤ 'F' then some (c.toNat - 55)
  else none

/-- What a backslash and `c` stand for. -/
def shortEscape? (c : Char) : Option Char :=
  if c = '"' ∨ c = '\\' ∨ c = '/' then some c
  else if c = 'b' then some (Char.ofNat 8)
  else if c = 'f' then some (Char.ofNat 12)
  else if c = 'n' then some '\n'
  else if c = 'r' then some '\r'
  else if c = 't' then some '\t'
  else none

/-- The pieces of a string up to its closing quote, and what follows it. -/
def scanString : List Char → Option (List Piece × List Char)
  | [] => none
  | '"' :: rest => some ([], rest)
  | '\\' :: 'u' :: a :: b :: c :: d :: rest => do
      let n := ((← hexValue? a) * 16 + (← hexValue? b)) * 16 + (← hexValue? c)
      let n := n * 16 + (← hexValue? d)
      let (pieces, rest) ← scanString rest
      return (.unit n :: pieces, rest)
  | '\\' :: c :: rest => do
      let c ← shortEscape? c
      let (pieces, rest) ← scanString rest
      return (.char c :: pieces, rest)
  | c :: rest =>
      if c.toNat < 32 then none
      else do
        let (pieces, rest) ← scanString rest
        return (.char c :: pieces, rest)

/-- The text of a string. A surrogate counts only as one of a pair. -/
def assemble : List Piece → Option (List Char)
  | [] => some []
  | .char c :: rest => do return c :: (← assemble rest)
  | .unit n :: .unit m :: rest =>
      if 0xD800 ≤ n ∧ n < 0xDC00 then
        if 0xDC00 ≤ m ∧ m < 0xE000 then do
          return Char.ofNat (0x10000 + (n - 0xD800) * 0x400 + (m - 0xDC00)) :: (← assemble rest)
        else none
      else if 0xDC00 ≤ n ∧ n < 0xE000 then none
      else do return Char.ofNat n :: (← assemble (.unit m :: rest))
  | .unit n :: rest =>
      if 0xD800 ≤ n ∧ n < 0xE000 then none
      else do return Char.ofNat n :: (← assemble rest)

def digits (cs : List Char) : List Char × List Char :=
  (cs.takeWhile Char.isDigit, cs.dropWhile Char.isDigit)

def decimal (cs : List Char) : Nat :=
  cs.foldl (fun n c => n * 10 + (c.toNat - 48)) 0

/-- The part of a number after its integer, if it is well-formed: whether there is any, and what
follows. -/
def scanFraction (cs : List Char) : Option (Bool × List Char) := do
  let (fraction, cs) ← match cs with
    | '.' :: rest =>
        let (ds, rest) := digits rest
        if ds.isEmpty then none else some (true, rest)
    | _ => some (false, cs)
  let exponent (rest : List Char) : Option (Bool × List Char) :=
    let rest := match rest with
      | '+' :: rest => rest
      | '-' :: rest => rest
      | rest => rest
    let (ds, rest) := digits rest
    if ds.isEmpty then none else some (true, rest)
  match cs with
  | 'e' :: rest => exponent rest
  | 'E' :: rest => exponent rest
  | _ => return (fraction, cs)

/-- A number at the start of `cs`. No digit follows a leading zero. -/
def scanNumber (cs : List Char) : Option (Value × List Char) := do
  let (negative, cs) := match cs with
    | '-' :: rest => (true, rest)
    | _ => (false, cs)
  let (ds, cs) := digits cs
  if ds.isEmpty ∨ (ds.head? = some '0' ∧ 1 < ds.length) then none
  let (inexact, cs) ← scanFraction cs
  return (.number (if negative || inexact then none else some (decimal ds)), cs)

def isBlank (c : Char) : Bool :=
  c = ' ' ∨ c = '\n' ∨ c = '\t' ∨ c = '\r'

/-- The token at the start of `cs`, which does not start with a blank. -/
def scanToken (cs : List Char) : Option (Token × List Char) :=
  match cs with
  | '[' :: rest => some (.openArray, rest)
  | ']' :: rest => some (.closeArray, rest)
  | '{' :: rest => some (.openObject, rest)
  | '}' :: rest => some (.closeObject, rest)
  | ',' :: rest => some (.comma, rest)
  | ':' :: rest => some (.colon, rest)
  | 'n' :: 'u' :: 'l' :: 'l' :: rest => some (.scalar .null, rest)
  | 't' :: 'r' :: 'u' :: 'e' :: rest => some (.scalar (.bool true), rest)
  | 'f' :: 'a' :: 'l' :: 's' :: 'e' :: rest => some (.scalar (.bool false), rest)
  | '"' :: rest => do
      let (pieces, rest) ← scanString rest
      return (.scalar (.string ((assemble pieces).map String.ofList)), rest)
  | cs => do
      let (v, rest) ← scanNumber cs
      return (.scalar v, rest)

/-- The tokens of a text of at most `fuel` characters; each takes at least one. -/
def tokenize : (fuel : Nat) → List Char → Option (List Token)
  | _, [] => some []
  | 0, _ => none
  | fuel + 1, c :: rest =>
      if isBlank c then tokenize fuel rest
      else do
        let (t, rest) ← scanToken (c :: rest)
        return t :: (← tokenize fuel rest)

mutual

/-- The value at the start of the tokens. Two steps of fuel go with every token. -/
def parseValue : (fuel : Nat) → List Token → Option (Value × List Token)
  | 0, _ => none
  | _ + 1, .scalar v :: rest => some (v, rest)
  | _ + 1, .openArray :: .closeArray :: rest => some (.array [], rest)
  | fuel + 1, .openArray :: rest => do
      let (items, rest) ← parseItems fuel rest
      return (.array items, rest)
  | _ + 1, .openObject :: .closeObject :: rest => some (.object [], rest)
  | fuel + 1, .openObject :: rest => do
      let (members, rest) ← parseMembers fuel rest
      return (.object members, rest)
  | _, _ => none

def parseItems : (fuel : Nat) → List Token → Option (List Value × List Token)
  | 0, _ => none
  | fuel + 1, tokens => do
      let (v, rest) ← parseValue fuel tokens
      match rest with
      | .closeArray :: rest => return ([v], rest)
      | .comma :: rest =>
          let (items, rest) ← parseItems fuel rest
          return (v :: items, rest)
      | _ => none

def parseMembers : (fuel : Nat) → List Token → Option (List (Option String × Value) × List Token)
  | fuel + 1, .scalar (.string key) :: .colon :: rest => do
      let (v, rest) ← parseValue fuel rest
      match rest with
      | .closeObject :: rest => return ([(key, v)], rest)
      | .comma :: rest =>
          let (members, rest) ← parseMembers fuel rest
          return ((key, v) :: members, rest)
      | _ => none
  | _, _ => none

end

/-- The value that the whole of `text` is. -/
def parse? (text : String) : Option Value := do
  let tokens ← tokenize text.length text.toList
  match ← parseValue (2 * tokens.length + 2) tokens with
  | (v, []) => return v
  | _ => none

/-- A character inside a printed string. -/
def escape (c : Char) : String :=
  if c = '"' then "\\\""
  else if c = '\\' then "\\\\"
  else if c = Char.ofNat 8 then "\\b"
  else if c = Char.ofNat 12 then "\\f"
  else if c = '\n' then "\\n"
  else if c = '\r' then "\\r"
  else if c = '\t' then "\\t"
  else if c.toNat < 32 then
    "\\u00" ++ (if c.toNat < 16 then "0" else "1") ++ String.ofList (Nat.toDigits 16 (c.toNat % 16))
  else String.singleton c

def printString (s : String) : String :=
  "\"" ++ String.join (s.toList.map escape) ++ "\""

/-- A list of strings, as the value of a member of the outermost object. -/
def printStrings (ss : List String) : String :=
  if ss.isEmpty then "[]"
  else "[\n" ++ ",\n".intercalate (ss.map fun s => "    " ++ printString s) ++ "\n  ]"

/-- The outermost object, from its members' keys and printed values. -/
def printObject (members : List (String × String)) : String :=
  "\x7b\n" ++ ",\n".intercalate (members.map fun (key, v) => "  " ++ printString key ++ ": " ++ v)
    ++ "\n\x7d"

end TermStats.Json
