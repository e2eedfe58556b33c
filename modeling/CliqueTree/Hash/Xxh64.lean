/-!
# XXH64

The 64-bit xxHash of a list of bytes. Blocks of 32 bytes feed four lanes; what is left over is folded
in by words of eight bytes, then four, then one; a final mixing spreads each bit over the word.
All arithmetic is on 64-bit words and wraps.
-/

set_option autoImplicit false

namespace CliqueTree.Hash

/-! ### The five odd multipliers -/

def prime1 : UInt64 := 0x9E3779B185EBCA87
def prime2 : UInt64 := 0xC2B2AE3D27D4EB4F
def prime3 : UInt64 := 0x165667B19E3779F9
def prime4 : UInt64 := 0x85EBCA77C2B2AE63
def prime5 : UInt64 := 0x27D4EB2F165667C5

/-! ### Mixing -/

/-- Turns the word by `r` bits to the left, for `0 < r < 64`. -/
def rotl (x r : UInt64) : UInt64 := (x <<< r) ||| (x >>> (64 - r))

/-- The number that the bytes spell, least byte first. -/
def littleEndian (bytes : List UInt8) : UInt64 :=
  bytes.foldr (fun b word => (word <<< 8) ||| b.toUInt64) 0

/-- Takes one word into a lane. -/
def round (lane word : UInt64) : UInt64 := rotl (lane + word * prime2) 31 * prime1

/-- The four lanes that the blocks of 32 bytes feed. -/
structure Lanes where
  a : UInt64
  b : UInt64
  c : UInt64
  d : UInt64

namespace Lanes

/-- The lanes before the first block. -/
def start (seed : UInt64) : Lanes :=
  ⟨seed + prime1 + prime2, seed + prime2, seed, seed - prime1⟩

/-- Takes one block of 32 bytes in, eight to each lane. -/
def feed (l : Lanes) (block : List UInt8) : Lanes where
  a := round l.a (littleEndian (block.take 8))
  b := round l.b (littleEndian ((block.drop 8).take 8))
  c := round l.c (littleEndian ((block.drop 16).take 8))
  d := round l.d (littleEndian ((block.drop 24).take 8))

/-- Takes in the given number of blocks; the second part is what follows them. -/
def feedBlocks : Nat → Lanes → List UInt8 → Lanes × List UInt8
  | 0, l, bytes => (l, bytes)
  | n + 1, l, bytes => feedBlocks n (l.feed (bytes.take 32)) (bytes.drop 32)

/-- Folds one lane into the hash. -/
def mergeLane (hash lane : UInt64) : UInt64 := (hash ^^^ round 0 lane) * prime1 + prime4

/-- The hash of the four lanes together. -/
def merge (l : Lanes) : UInt64 :=
  [l.a, l.b, l.c, l.d].foldl mergeLane (rotl l.a 1 + rotl l.b 7 + rotl l.c 12 + rotl l.d 18)

end Lanes

/-- Folds in the bytes that fill no block: words of eight, then one of four, then single bytes. -/
def foldRest (hash : UInt64) (bytes : List UInt8) : UInt64 :=
  if _h : 8 ≤ bytes.length then
    foldRest (rotl (hash ^^^ round 0 (littleEndian (bytes.take 8))) 27 * prime1 + prime4) (bytes.drop 8)
  else if _h : 4 ≤ bytes.length then
    foldRest (rotl (hash ^^^ littleEndian (bytes.take 4) * prime1) 23 * prime2 + prime3) (bytes.drop 4)
  else
    bytes.foldl (fun hash b => rotl (hash ^^^ b.toUInt64 * prime5) 11 * prime1) hash
termination_by bytes.length
decreasing_by all_goals simp only [List.length_drop]; omega

/-- The final mixing. -/
def avalanche (hash : UInt64) : UInt64 :=
  let hash := (hash ^^^ (hash >>> 33)) * prime2
  let hash := (hash ^^^ (hash >>> 29)) * prime3
  hash ^^^ (hash >>> 32)

/-- The hash of `bytes` under `seed`. -/
def xxh64 (seed : UInt64) (bytes : List UInt8) : UInt64 :=
  let length := bytes.length
  let (lanes, rest) := Lanes.feedBlocks (length / 32) (Lanes.start seed) bytes
  let start := if 32 ≤ length then lanes.merge else seed + prime5
  avalanche (foldRest (start + length.toUInt64) rest)

end CliqueTree.Hash
