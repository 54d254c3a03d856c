import TermStats.Text.Utf8

/-!
Variable-length integers: seven payload bits a byte, least significant group first,
the high bit set on every byte but the last. Decoding stops at ten bytes and refuses
a tenth byte that would leave 64 bits; longer-than-needed encodings are accepted.
Signed values are stored by their two's-complement bits or zigzag-encoded.
-/

namespace TermStats.Varint

def maxLength : Nat := 10

/-- The digits of `n` in base 128, the least significant first. -/
def encodeNat (n : Nat) : Bytes :=
  if n < 128 then [n.toUInt8]
  else (n % 128 + 128).toUInt8 :: encodeNat (n / 128)

def encode (v : UInt64) : Bytes :=
  encodeNat v.toNat

/-- The two's-complement bits of `v`, as a varint. -/
def encodeInt (v : Int64) : Bytes :=
  encode v.toUInt64

def zigzag (v : Int64) : UInt64 :=
  ((v <<< 1) ^^^ (v >>> 63)).toUInt64

def unzigzag (u : UInt64) : Int64 :=
  (u >>> 1).toInt64 ^^^ -(u &&& 1).toInt64

def encodeZigzag (v : Int64) : Bytes :=
  encode (zigzag v)

/-- The number of bytes that `encode v` has: one for each started group of seven bits. -/
def encodedLength (v : UInt64) : Nat :=
  ((v ||| 1).toNat.log2 + 1 + 6) / 7

inductive Fault where
  | truncated
  | overflow
  | overlong
  deriving Repr, DecidableEq, Inhabited

/-- Reads digits until one has its high bit clear, at most `left` of them. The last one allowed is
the tenth, at weight 2^63, so it may only be 0 or 1. -/
def decodeDigits : (left : Nat) → Bytes → Except Fault (Nat × Bytes)
  | 0, _ => .error .overlong
  | _ + 1, [] => .error .truncated
  | left + 1, b :: rest =>
      if left = 0 ∧ 1 < b.toNat % 128 then .error .overflow
      else if b.toNat < 128 then .ok (b.toNat, rest)
      else
        match decodeDigits left rest with
        | .error f => .error f
        | .ok (n, rest') => .ok (b.toNat % 128 + 128 * n, rest')

/-- The value at the start of the bytes, and the bytes after it. -/
def decode (bytes : Bytes) : Except Fault (UInt64 × Bytes) :=
  match decodeDigits maxLength bytes with
  | .error f => .error f
  | .ok (n, rest) => .ok (n.toUInt64, rest)

theorem length_of_decodeDigits {left : Nat} {bytes rest : Bytes} {n : Nat}
    (h : decodeDigits left bytes = .ok (n, rest)) : rest.length < bytes.length := by
  induction left generalizing bytes rest n with
  | zero => simp [decodeDigits] at h
  | succ left ih =>
      cases bytes with
      | nil => simp [decodeDigits] at h
      | cons b bs =>
          simp only [decodeDigits] at h
          split at h
          · cases h
          · split at h
            · cases h; simp
            · split at h
              · cases h
              · rename_i hd
                cases h
                exact Nat.lt_succ_of_lt (ih hd)

theorem length_of_decode {bytes rest : Bytes} {v : UInt64}
    (h : decode bytes = .ok (v, rest)) : rest.length < bytes.length := by
  unfold decode at h
  split at h
  · cases h
  · rename_i hd
    cases h
    exact length_of_decodeDigits hd

end TermStats.Varint
