import TermStats.Varint.Basic
import TermStats.Error

/-!
A reader of varints and raw bytes that knows its position. A read that fails leaves
no new reader behind, so its caller goes on with the one it has.
-/

namespace TermStats

/-- The bytes still to be read, and how many came before them. -/
structure Reader where
  pos : Nat
  rest : Bytes
  deriving Repr, DecidableEq, Inhabited

inductive ReadFault where
  | beyondEnd (pos length : Nat)
  | truncated (pos : Nat)
  | overflow
  | overlong (pos : Nat)
  deriving Repr, DecidableEq, Inhabited

namespace ReadFault

def message : ReadFault → String
  | beyondEnd pos length => s!"offset {pos} beyond end of data ({length} bytes)"
  | truncated pos => s!"truncated data at offset {pos}"
  | overflow => "varint overflows u64"
  | overlong pos => s!"varint longer than {Varint.maxLength} bytes at {pos}"

def toError (element : String) (f : ReadFault) : Error :=
  .invalidFormat element f.message

/-- A varint's fault, at the position where the varint starts. -/
def ofVarint (pos : Nat) : Varint.Fault → ReadFault
  | .truncated => truncated pos
  | .overflow => overflow
  | .overlong => overlong pos

end ReadFault

namespace Reader

def ofBytes (data : Bytes) : Reader :=
  ⟨0, data⟩

/-- A reader of `data` from `pos` on. The end itself is a valid place. -/
def atOffset (data : Bytes) (pos : Nat) : Except ReadFault Reader :=
  if data.length < pos then .error (.beyondEnd pos data.length)
  else .ok ⟨pos, data.drop pos⟩

def remaining (r : Reader) : Nat :=
  r.rest.length

def isEmpty (r : Reader) : Bool :=
  r.rest.isEmpty

def readU64 (r : Reader) : Except ReadFault (UInt64 × Reader) :=
  match Varint.decode r.rest with
  | .error f => .error (.ofVarint r.pos f)
  | .ok (v, rest) => .ok (v, ⟨r.pos + (r.rest.length - rest.length), rest⟩)

/-- A varint that holds the two's-complement bits of its value. -/
def readInt (r : Reader) : Except ReadFault (Int64 × Reader) :=
  match r.readU64 with
  | .error f => .error f
  | .ok (v, r) => .ok (v.toInt64, r)

def readZigzag (r : Reader) : Except ReadFault (Int64 × Reader) :=
  match r.readU64 with
  | .error f => .error f
  | .ok (v, r) => .ok (Varint.unzigzag v, r)

def readByte (r : Reader) : Except ReadFault (UInt8 × Reader) :=
  match r.rest with
  | [] => .error (.truncated r.pos)
  | b :: rest => .ok (b, ⟨r.pos + 1, rest⟩)

def readBytes (r : Reader) (count : Nat) : Except ReadFault (Bytes × Reader) :=
  if r.rest.length < count then .error (.truncated r.pos)
  else .ok (r.rest.take count, ⟨r.pos + count, r.rest.drop count⟩)

theorem length_of_readU64 {r r' : Reader} {v : UInt64} (h : r.readU64 = .ok (v, r')) :
    r'.rest.length < r.rest.length := by
  simp only [readU64] at h
  split at h
  · cases h
  · rename_i hd
    cases h
    exact Varint.length_of_decode hd

theorem length_of_readInt {r r' : Reader} {v : Int64} (h : r.readInt = .ok (v, r')) :
    r'.rest.length < r.rest.length := by
  simp only [readInt] at h
  split at h
  · cases h
  · rename_i hd
    cases h
    exact length_of_readU64 hd

theorem length_of_readZigzag {r r' : Reader} {v : Int64} (h : r.readZigzag = .ok (v, r')) :
    r'.rest.length < r.rest.length := by
  simp only [readZigzag] at h
  split at h
  · cases h
  · rename_i hd
    cases h
    exact length_of_readU64 hd

theorem length_of_readByte {r r' : Reader} {b : UInt8} (h : r.readByte = .ok (b, r')) :
    r'.rest.length < r.rest.length := by
  simp only [readByte] at h
  split at h
  · cases h
  · rename_i hr
    cases h
    simp [hr]

theorem length_of_readBytes {r r' : Reader} {count : Nat} {bs : Bytes}
    (h : r.readBytes count = .ok (bs, r')) : r'.rest.length ≤ r.rest.length := by
  simp only [readBytes] at h
  split at h
  · cases h
  · cases h
    simp

/-- What `r` and a later reader of the same data have in common. -/
def Reaches (r r' : Reader) : Prop :=
  r.pos ≤ r'.pos ∧ r'.pos + r'.rest.length = r.pos + r.rest.length

theorem Reaches.trans {a b c : Reader} (h : a.Reaches b) (h' : b.Reaches c) : a.Reaches c :=
  ⟨Nat.le_trans h.1 h'.1, h'.2.trans h.2⟩

/-- Fewer bytes are left exactly when the reader has moved on. -/
theorem Reaches.pos_lt {r r' : Reader} (h : r.Reaches r')
    (hl : r'.rest.length < r.rest.length) : r.pos < r'.pos := by
  have := h.2
  omega

theorem reaches_of_readU64 {r r' : Reader} {v : UInt64} (h : r.readU64 = .ok (v, r')) :
    r.Reaches r' := by
  have hl := length_of_readU64 h
  simp only [readU64] at h
  split at h
  · cases h
  · cases h
    simp only [Reaches] at hl ⊢
    omega

theorem reaches_of_readInt {r r' : Reader} {v : Int64} (h : r.readInt = .ok (v, r')) :
    r.Reaches r' := by
  simp only [readInt] at h
  split at h
  · cases h
  · rename_i hd
    cases h
    exact reaches_of_readU64 hd

theorem reaches_of_readBytes {r r' : Reader} {count : Nat} {bs : Bytes}
    (h : r.readBytes count = .ok (bs, r')) : r.Reaches r' := by
  simp only [readBytes] at h
  split at h
  · cases h
  · cases h
    simp only [Reaches, List.length_drop]
    omega

theorem atOffset_eq_ok {data : Bytes} {pos : Nat} {r : Reader}
    (h : atOffset data pos = .ok r) : r.pos = pos ∧ r.pos + r.rest.length = data.length := by
  simp only [atOffset] at h
  split at h
  · cases h
  · cases h
    simp only [List.length_drop, true_and]
    omega

end Reader
end TermStats
