import StyleIndex.Text.Basic

set_option autoImplicit false

/-! # Binary numbers

Numbers in data are kept in double precision: a whole number below `2 ^ 53` times a power of two.
All arithmetic here is exact, on whole numbers; only reading a decimal rounds, to the nearest
such number and, halfway between two, to the one with an even mantissa.
-/

namespace StyleIndex

/-- A number in double precision. -/
inductive Binary64 where
  /-- Plus or minus `mantissa * 2 ^ exponent`. -/
  | finite (negative : Bool) (mantissa : Nat) (exponent : Int)
  | infinite (negative : Bool)
  | notANumber
  deriving DecidableEq

namespace Binary64

/-- The power `2 ^ n`. -/
def twoTo (n : Nat) : Nat := Nat.pow 2 n

/-- The power `10 ^ n`. -/
def tenTo (n : Nat) : Nat := Nat.pow 10 n

/-- The least exponent. -/
def leastExponent : Int := -1074

/-- The greatest exponent. -/
def greatestExponent : Int := 971

/-- Zero. -/
def zero (negative : Bool) : Binary64 := .finite negative 0 leastExponent

/-- The quotient rounded to the nearest whole number, halfway to the even one. -/
def roundQuotient (n d : Nat) : Nat :=
  let q := n / d
  let twice := 2 * (n % d)
  if twice < d then q else if d < twice then q + 1 else q + q % 2

/-- The fraction `(n / d) / 2 ^ e` as a pair of whole numbers. -/
def scale (n d : Nat) (e : Int) : Nat × Nat :=
  if 0 ≤ e then (n, d * twoTo e.toNat) else (n * twoTo (-e).toNat, d)

/-- The fraction `n / d` rounded to a binary number; nothing when it is too large. -/
def ofFraction? (negative : Bool) (n d : Nat) : Option Binary64 :=
  let low := max ((n.log2 : Int) - d.log2 - 53) leastExponent
  let (n₁, d₁) := scale n d low
  let e := if twoTo 53 ≤ n₁ / d₁ then low + 1 else low
  let (n₂, d₂) := scale n d e
  let m := roundQuotient n₂ d₂
  let (m, e) := if m = twoTo 53 then (twoTo 52, e + 1) else (m, e)
  if greatestExponent < e then none else some (.finite negative m e)

/-- The decimal `digits * 10 ^ exponent` rounded to a binary number; nothing when it is too
large. -/
def ofDecimal? (negative : Bool) (digits : Nat) (exponent : Int) : Option Binary64 :=
  let magnitude := ((toString digits).length : Int) + exponent
  if digits = 0 ∨ magnitude < -330 then some (zero negative)
  else if 310 < magnitude then none
  else if 0 ≤ exponent then ofFraction? negative (digits * tenTo exponent.toNat) 1
  else ofFraction? negative digits (tenTo (-exponent).toNat)

/-- Whether the number is zero. -/
def isZero : Binary64 → Bool
  | .finite _ m _ => m == 0
  | _ => false

/-- The least signed 64-bit value, which stands for every number that does not fit. -/
def outOfRange : Int := -9223372036854775808

/-- The whole part of a number as a signed 64-bit value. -/
def truncate : Binary64 → Int
  | .finite negative m e =>
    let whole := if 0 ≤ e then m * twoTo e.toNat else m / twoTo (-e).toNat
    if 9223372036854775808 ≤ whole then outOfRange
    else if negative then -(whole : Int) else whole
  | _ => outOfRange

end Binary64

end StyleIndex
