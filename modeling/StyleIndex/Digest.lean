import StyleIndex.Text.Basic

set_option autoImplicit false

/-! # Digests

A digest is a 64-bit word computed from a text. Two texts with different digests differ, so a
file whose digest is the one seen before is taken to be unchanged.

The text is read as little-endian words: blocks of thirty-two bytes go through four lanes side by
side, what is left goes word by word into the accumulator, and a last step spreads every bit over
the whole word.
-/

namespace StyleIndex

namespace Digest

/-- The multiplier of a lane. -/
def prime1 : UInt64 := 11400714785074694791
/-- The multiplier of the input. -/
def prime2 : UInt64 := 14029467366897019727
/-- A constant of the last steps. -/
def prime3 : UInt64 := 1609587929392839161
/-- A constant that is added when words are merged. -/
def prime4 : UInt64 := 9650029242287828579
/-- The start of the digest of a short text. -/
def prime5 : UInt64 := 2870177450012600261

/-- Rotation to the left. -/
def rotate (x k : UInt64) : UInt64 := (x <<< k) ||| (x >>> (64 - k))

/-- The word whose little-endian bytes are given. -/
def word (bytes : Text) : UInt64 := bytes.foldr (fun b n => (n <<< 8) ||| b.toUInt64) 0

/-- Takes a word into a lane. -/
def mix (lane input : UInt64) : UInt64 := rotate (lane + input * prime2) 31 * prime1

/-- Takes a finished lane into the digest. -/
def merge (h lane : UInt64) : UInt64 := (h ^^^ mix 0 lane) * prime1 + prime4

/-- The four lanes. -/
structure Lanes where
  a : UInt64
  b : UInt64
  c : UInt64
  d : UInt64

namespace Lanes

/-- The lanes before any input. -/
def start : Lanes := ⟨prime1 + prime2, prime2, 0, 0 - prime1⟩

/-- Takes a block of thirty-two bytes into the lanes. -/
def block (l : Lanes) (t : Text) : Lanes :=
  ⟨mix l.a (word (t.slice 0 8)), mix l.b (word (t.slice 8 16)),
    mix l.c (word (t.slice 16 24)), mix l.d (word (t.slice 24 32))⟩

/-- Takes the given number of blocks into the lanes. -/
def blocks : (count : Nat) → Lanes → Text → Lanes
  | 0, l, _ => l
  | count + 1, l, t => blocks count (l.block t) (t.drop 32)

/-- The digest of the lanes. -/
def digest (l : Lanes) : UInt64 :=
  let h := rotate l.a 1 + rotate l.b 7 + rotate l.c 12 + rotate l.d 18
  [l.a, l.b, l.c, l.d].foldl merge h

end Lanes

/-- Takes the given number of eight-byte words into the digest. -/
def longWords : (count : Nat) → UInt64 → Text → UInt64
  | 0, h, _ => h
  | count + 1, h, t =>
    longWords count (rotate (h ^^^ mix 0 (word (t.take 8))) 27 * prime1 + prime4) (t.drop 8)

/-- Takes a four-byte word into the digest. -/
def shortWord (h : UInt64) (bytes : Text) : UInt64 :=
  rotate (h ^^^ (word bytes * prime1)) 23 * prime2 + prime3

/-- Takes a single byte into the digest. -/
def byte (h : UInt64) (b : UInt8) : UInt64 := rotate (h ^^^ (b.toUInt64 * prime5)) 11 * prime1

/-- Takes fewer than thirty-two bytes into the digest. -/
def tail (h : UInt64) (t : Text) : UInt64 :=
  let h := longWords (t.length / 8) h t
  let rest := t.drop (t.length / 8 * 8)
  if 4 ≤ rest.length then (rest.drop 4).foldl byte (shortWord h (rest.take 4))
  else rest.foldl byte h

/-- Spreads every bit over the whole word. -/
def avalanche (h : UInt64) : UInt64 :=
  let h := (h ^^^ (h >>> 33)) * prime2
  let h := (h ^^^ (h >>> 29)) * prime3
  h ^^^ (h >>> 32)

end Digest

/-- The digest of a text. -/
def Text.digest (t : Text) : UInt64 :=
  let blocks := t.length / 32
  let h := if blocks = 0 then Digest.prime5 else (Digest.Lanes.blocks blocks .start t).digest
  Digest.avalanche (Digest.tail (h + t.length.toUInt64) (t.drop (blocks * 32)))

end StyleIndex
