/-!
Bytes as text. `decode?` accepts exactly the well-formed encodings; `lossy` accepts
everything and puts one U+FFFD for each maximal ill-formed part, where a part ends
before the first byte that cannot continue a scalar value.
-/

namespace TermStats

abbrev Bytes := List UInt8

namespace Text

/-- The bytes of `s` in UTF-8. -/
def encode (s : String) : Bytes :=
  s.toByteArray.data.toList

def decode? (bytes : Bytes) : Option String :=
  if h : (ByteArray.mk bytes.toArray).IsValidUTF8 then some ⟨_, h⟩ else none

theorem decode?_encode (s : String) : decode? (encode s) = some s := by
  have h : ByteArray.mk (encode s).toArray = s.toByteArray := by
    cases hs : s.toByteArray with
    | mk data => simp [encode, hs]
  simp [decode?, h, s.isValidUTF8]

theorem encode_of_decode? {bytes : Bytes} {s : String} (h : decode? bytes = some s) :
    encode s = bytes := by
  unfold decode? at h
  split at h
  · cases h; rfl
  · cases h

def replacement : Char := Char.ofNat 0xFFFD

/-- How a multi-byte scalar value may go on after its first byte: the payload of that byte, the
bounds of the second byte, and the number of bytes that follow the second. -/
structure Lead where
  payload : Nat
  low : Nat
  high : Nat
  more : Nat

/-- The lead bytes of well-formed UTF-8. The bounds on the second byte shut out overlong forms,
surrogates, and values beyond U+10FFFF. -/
def lead? (b : Nat) : Option Lead :=
  if 0xC2 ≤ b ∧ b ≤ 0xDF then some ⟨b % 32, 0x80, 0xBF, 0⟩
  else if b = 0xE0 then some ⟨0, 0xA0, 0xBF, 1⟩
  else if b = 0xED then some ⟨13, 0x80, 0x9F, 1⟩
  else if 0xE1 ≤ b ∧ b ≤ 0xEF then some ⟨b % 16, 0x80, 0xBF, 1⟩
  else if b = 0xF0 then some ⟨0, 0x90, 0xBF, 2⟩
  else if 0xF1 ≤ b ∧ b ≤ 0xF3 then some ⟨b % 8, 0x80, 0xBF, 2⟩
  else if b = 0xF4 then some ⟨4, 0x80, 0x8F, 2⟩
  else none

/-- Takes `more` continuation bytes, as far as there are any. -/
def tail : (more payload : Nat) → Bytes → Char × Bytes
  | 0, payload, rest => (Char.ofNat payload, rest)
  | _ + 1, _, [] => (replacement, [])
  | more + 1, payload, b :: rest =>
      if 0x80 ≤ b.toNat ∧ b.toNat ≤ 0xBF then tail more (payload * 64 + b.toNat % 64) rest
      else (replacement, b :: rest)

/-- The first character of `b :: rest`, and what is left. -/
def next (b : UInt8) (rest : Bytes) : Char × Bytes :=
  if b.toNat < 0x80 then (Char.ofNat b.toNat, rest)
  else
    match lead? b.toNat, rest with
    | some l, c :: rest' =>
        if l.low ≤ c.toNat ∧ c.toNat ≤ l.high then tail l.more (l.payload * 64 + c.toNat % 64) rest'
        else (replacement, rest)
    | _, _ => (replacement, rest)

theorem length_tail (more payload : Nat) (rest : Bytes) :
    (tail more payload rest).2.length ≤ rest.length := by
  induction more generalizing payload rest with
  | zero => simp [tail]
  | succ more ih =>
      cases rest with
      | nil => simp [tail]
      | cons b rest =>
          simp only [tail]
          split
          · exact Nat.le_succ_of_le (ih _ _)
          · simp

theorem length_next (b : UInt8) (rest : Bytes) : (next b rest).2.length ≤ rest.length := by
  unfold next
  split
  · simp
  · split
    · split
      · exact Nat.le_succ_of_le (length_tail _ _ _)
      · simp
    · simp

def lossyChars : Bytes → List Char
  | [] => []
  | b :: rest => (next b rest).1 :: lossyChars (next b rest).2
termination_by bytes => bytes.length
decreasing_by
  have := length_next b rest
  simp only [List.length_cons]
  omega

def lossy (bytes : Bytes) : String :=
  String.ofList (lossyChars bytes)

end Text
end TermStats
