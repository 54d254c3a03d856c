import TermStats.Text.Utf8

/-!
XXH3, 64 bits wide, with a seed. Inputs are hashed in one of six ways by their length:
0, up to 3, 8, 16, 128 and 240 bytes, and longer ones in stripes of 64 bytes. All words
are little-endian and all arithmetic wraps at 64 bits.
-/

namespace TermStats.Xxh3

abbrev Block := Array UInt8

def secretWords : List UInt64 :=
  [0xbe4ba423396cfeb8, 0x1cad21f72c81017c, 0xdb979083e96dd4de, 0x1f67b3b7a4a44072,
   0x78e5c0cc4ee679cb, 0x2172ffcc7dd05a82, 0x8e2443f7744608b8, 0x4c263a81e69035e0,
   0xcb00c391bb52283c, 0xa32e531b8b65d088, 0x4ef90da297486471, 0xd8acdea946ef1938,
   0x3f349ce33f76faa8, 0x1d4f0bc7c7bbdcf9, 0x3159b4cd4be0518a, 0x647378d9c97e9fc8,
   0xc3ebd33483acc5ea, 0xeb6313faffa081c5, 0x49daf0b751dd0d17, 0x9e68d429265516d3,
   0xfca1477d58be162b, 0xce31d07ad1b8f88f, 0x280416958f3acb45, 0x7e404bbbcafbd7af]

def littleEndian (w : UInt64) : Bytes :=
  [w.toUInt8, (w >>> 8).toUInt8, (w >>> 16).toUInt8, (w >>> 24).toUInt8,
   (w >>> 32).toUInt8, (w >>> 40).toUInt8, (w >>> 48).toUInt8, (w >>> 56).toUInt8]

def secret : Block :=
  (secretWords.flatMap littleEndian).toArray

def byte (b : Block) (i : Nat) : UInt64 :=
  (b.getD i 0).toUInt64

def word32 (b : Block) (i : Nat) : UInt64 :=
  byte b i ||| byte b (i + 1) <<< 8 ||| byte b (i + 2) <<< 16 ||| byte b (i + 3) <<< 24

def word64 (b : Block) (i : Nat) : UInt64 :=
  word32 b i ||| word32 b (i + 4) <<< 32

def prime32a : UInt64 := 0x9E3779B1
def prime32b : UInt64 := 0x85EBCA77
def prime32c : UInt64 := 0xC2B2AE3D
def prime64a : UInt64 := 0x9E3779B185EBCA87
def prime64b : UInt64 := 0xC2B2AE3D27D4EB4F
def prime64c : UInt64 := 0x165667B19E3779F9
def prime64d : UInt64 := 0x85EBCA77C2B2AE63
def prime64e : UInt64 := 0x27D4EB2F165667C5
def primeMixA : UInt64 := 0x165667919E3779F9
def primeMixB : UInt64 := 0x9FB21C651E98DF25

def rotateLeft (x : UInt64) (n : UInt64) : UInt64 :=
  x <<< n ||| x >>> (64 - n)

def swapBytes (x : UInt64) : UInt64 :=
  (littleEndian x).foldl (fun acc b => acc <<< 8 ||| b.toUInt64) 0

def lowHalf (x : UInt64) : UInt64 :=
  x &&& 0xFFFFFFFF

/-- The two halves of the 128-bit product, combined. -/
def foldProduct (a b : UInt64) : UInt64 :=
  let product := a.toNat * b.toNat
  product.toUInt64 ^^^ (product / UInt64.size).toUInt64

def avalanche (h : UInt64) : UInt64 :=
  let h := (h ^^^ h >>> 37) * primeMixA
  h ^^^ h >>> 32

/-- The final mixing of the shortest inputs. -/
def avalancheShort (h : UInt64) : UInt64 :=
  let h := (h ^^^ h >>> 33) * prime64b
  let h := (h ^^^ h >>> 29) * prime64c
  h ^^^ h >>> 32

def hashEmpty (seed : UInt64) : UInt64 :=
  avalancheShort (seed ^^^ word64 secret 56 ^^^ word64 secret 64)

def hashTo3 (seed : UInt64) (b : Block) : UInt64 :=
  let combined := byte b 0 <<< 16 ||| byte b (b.size / 2) <<< 24 ||| byte b (b.size - 1)
    ||| b.size.toUInt64 <<< 8
  avalancheShort (combined ^^^ ((word32 secret 0 ^^^ word32 secret 4) + seed))

def hashTo8 (seed : UInt64) (b : Block) : UInt64 :=
  let seed := seed ^^^ (swapBytes (lowHalf seed) >>> 32) <<< 32
  let flip := (word64 secret 8 ^^^ word64 secret 16) - seed
  let h := (word32 b (b.size - 4) + word32 b 0 <<< 32) ^^^ flip
  let h := (h ^^^ rotateLeft h 49 ^^^ rotateLeft h 24) * primeMixB
  let h := (h ^^^ (h >>> 35 + b.size.toUInt64)) * primeMixB
  h ^^^ h >>> 28

def hashTo16 (seed : UInt64) (b : Block) : UInt64 :=
  let low := word64 b 0 ^^^ ((word64 secret 24 ^^^ word64 secret 32) + seed)
  let high := word64 b (b.size - 8) ^^^ ((word64 secret 40 ^^^ word64 secret 48) - seed)
  avalanche (b.size.toUInt64 + swapBytes low + high + foldProduct low high)

def mix16 (seed : UInt64) (b : Block) (at16 : Nat) (key : Nat) : UInt64 :=
  foldProduct (word64 b at16 ^^^ (word64 secret key + seed))
    (word64 b (at16 + 8) ^^^ (word64 secret (key + 8) - seed))

/-- Pairs of 16-byte pieces, from the two ends of the input inwards. -/
def hashTo128 (seed : UInt64) (b : Block) : UInt64 :=
  let pairs := (b.size - 1) / 32 + 1
  avalanche ((List.range pairs).foldl
    (fun acc i => acc + mix16 seed b (16 * i) (32 * i)
      + mix16 seed b (b.size - 16 * (i + 1)) (32 * i + 16))
    (b.size.toUInt64 * prime64a))

def hashTo240 (seed : UInt64) (b : Block) : UInt64 :=
  let first := (List.range 8).foldl (fun acc i => acc + mix16 seed b (16 * i) (16 * i))
    (b.size.toUInt64 * prime64a)
  let rest := (List.range (b.size / 16 - 8)).foldl
    (fun acc i => acc + mix16 seed b (16 * (i + 8)) (16 * i + 3)) (avalanche first)
  avalanche (rest + mix16 seed b (b.size - 16) 119)

/-- The secret that long inputs use: the seed is added to and subtracted from its words by turns. -/
def seededSecret (seed : UInt64) : Block :=
  (secretWords.zipIdx.flatMap fun (w, i) =>
    littleEndian (if i % 2 = 0 then w + seed else w - seed)).toArray

/-- Adds the stripe of 64 bytes at `pos` to the eight lanes. -/
def accumulate (key b : Block) (lanes : List UInt64) (pos keyPos : Nat) : List UInt64 :=
  lanes.zipIdx.map fun (lane, i) =>
    let mixed := word64 b (pos + 8 * i) ^^^ word64 key (keyPos + 8 * i)
    lane + word64 b (pos + 8 * (i ^^^ 1)) + lowHalf mixed * (mixed >>> 32)

def scramble (key : Block) (lanes : List UInt64) : List UInt64 :=
  lanes.zipIdx.map fun (lane, i) =>
    (lane ^^^ lane >>> 47 ^^^ word64 key (128 + 8 * i)) * prime32a

def accumulateStripes (key b : Block) (start count : Nat) (lanes : List UInt64) : List UInt64 :=
  (List.range count).foldl (fun lanes i => accumulate key b lanes (start + 64 * i) (8 * i)) lanes

def mergeLanes (key : Block) : (i : Nat) → List UInt64 → UInt64
  | i, a :: b :: rest =>
      foldProduct (a ^^^ word64 key (11 + 16 * i)) (b ^^^ word64 key (19 + 16 * i))
        + mergeLanes key (i + 1) rest
  | _, _ => 0

/-- Blocks of sixteen stripes, each followed by a scrambling, then the stripes of the last block,
then the last 64 bytes. -/
def hashLong (seed : UInt64) (b : Block) : UInt64 :=
  let key := seededSecret seed
  let lanes := [prime32c, prime64a, prime64b, prime64c, prime64d, prime32b, prime64e, prime32a]
  let blocks := (b.size - 1) / 1024
  let lanes := (List.range blocks).foldl
    (fun lanes i => scramble key (accumulateStripes key b (1024 * i) 16 lanes)) lanes
  let lanes := accumulateStripes key b (1024 * blocks) ((b.size - 1 - 1024 * blocks) / 64) lanes
  let lanes := accumulate key b lanes (b.size - 64) 121
  avalanche (b.size.toUInt64 * prime64a + mergeLanes key 0 lanes)

def hash (seed : UInt64) (data : Bytes) : UInt64 :=
  let b := data.toArray
  if b.size = 0 then hashEmpty seed
  else if b.size ≤ 3 then hashTo3 seed b
  else if b.size ≤ 8 then hashTo8 seed b
  else if b.size ≤ 16 then hashTo16 seed b
  else if b.size ≤ 128 then hashTo128 seed b
  else if b.size ≤ 240 then hashTo240 seed b
  else hashLong seed b

end TermStats.Xxh3
