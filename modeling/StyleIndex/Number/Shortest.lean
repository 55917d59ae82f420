import StyleIndex.Number.Binary64

set_option autoImplicit false

/-! # Shortest decimals

A binary number is written with the fewest digits that read back as the same number; of those
decimals, the one nearest to it. A decimal reads back when it lies between the halfway points to
the two neighbours of the number, the points themselves included when the mantissa is even.
-/

namespace StyleIndex

namespace Binary64

/-- The digits of a decimal and the place of its point: `0.d₁d₂… * 10 ^ point`. -/
structure Digits where
  digits : Nat
  point : Int

/-- The number of decimal digits of a whole number. -/
def digitCount (n : Nat) : Nat := (toString n).length

/-- A whole number without its trailing zeros, in at most `limit` steps. -/
def dropZeros : (limit n : Nat) → Nat
  | 0, n => n
  | limit + 1, n => if n ≠ 0 ∧ n % 10 = 0 then dropZeros limit (n / 10) else n

/-- The place of the first digit of the fraction `n / d`: the greatest `f` with `10 ^ f ≤ n / d`. -/
def firstPlace (n d : Nat) : Int :=
  if d ≤ n then digitCount (n / d) - 1
  else
    let t := digitCount (d / n)
    if n * tenTo (t - 1) = d then 1 - (t : Int) else -(t : Int)

/-- Whether `c * 10 ^ k` is at most, or below if `strict`, the fraction `n / d`. -/
def atMost (c : Nat) (k : Int) (n d : Nat) (strict : Bool) : Bool :=
  let (a, b) := if 0 ≤ k then (c * tenTo k.toNat * d, n) else (c * d, n * tenTo (-k).toNat)
  if strict then a < b else a ≤ b

/-- Whether the fraction `n / d` is at most, or below if `strict`, `c * 10 ^ k`. -/
def atLeast (c : Nat) (k : Int) (n d : Nat) (strict : Bool) : Bool :=
  let (a, b) := if 0 ≤ k then (n, c * tenTo k.toNat * d) else (n * tenTo (-k).toNat, c * d)
  if strict then a < b else a ≤ b

/-- An interval of fractions over one denominator, around the numerator `middle`. -/
structure Interval where
  low : Nat
  middle : Nat
  high : Nat
  denominator : Nat
  /-- Whether the ends do not belong to it. -/
  strict : Bool

namespace Interval

/-- The decimals that read back as `mantissa * 2 ^ exponent`. -/
def ofBinary (mantissa : Nat) (exponent : Int) : Interval :=
  let below := if mantissa = twoTo 52 ∧ leastExponent < exponent then 1 else 2
  let e := exponent - 2
  let factor := if 0 ≤ e then twoTo e.toNat else 1
  { low := (4 * mantissa - below) * factor
    middle := 4 * mantissa * factor
    high := (4 * mantissa + 2) * factor
    denominator := if 0 ≤ e then 1 else twoTo (-e).toNat
    strict := mantissa % 2 = 1 }

/-- Whether `c * 10 ^ k` lies in the interval. -/
def contains (i : Interval) (c : Nat) (k : Int) : Bool :=
  atLeast c k i.low i.denominator i.strict && atMost c k i.high i.denominator i.strict

/-- Of the two multiples of `10 ^ k` around the middle, the one in the interval that is nearest to
the middle. -/
def nearest? (i : Interval) (k : Int) : Option Nat :=
  let (n, d) :=
    if 0 ≤ k then (i.middle, i.denominator * tenTo k.toNat)
    else (i.middle * tenTo (-k).toNat, i.denominator)
  let c := n / d
  match i.contains c k, i.contains (c + 1) k with
  | true, true => some (if d < 2 * (n % d) then c + 1 else c)
  | true, false => some c
  | false, true => some (c + 1)
  | false, false => none

/-- The shortest decimal in the interval with at least `count` digits, trying at most `limit`
lengths. -/
def shortest (i : Interval) (first : Int) : (limit count : Nat) → Digits
  | 0, _ => ⟨0, 0⟩
  | limit + 1, count =>
    let k := first + 1 - count
    match i.nearest? k with
    | some c =>
      let digits := dropZeros count c
      ⟨digits, k + digitCount c⟩
    | none => shortest i first limit (count + 1)

end Interval

/-- The shortest decimal of `mantissa * 2 ^ exponent`, which is not zero. Seventeen digits always
suffice. -/
def shortestDigits (mantissa : Nat) (exponent : Int) : Digits :=
  let i := Interval.ofBinary mantissa exponent
  i.shortest (firstPlace i.middle i.denominator) 17 1

/-- As many zeros as the number says; none when it is negative. -/
def zeros (n : Int) : Text := List.replicate n.toNat 0x30

/-- A decimal in positional notation. -/
def Digits.positional (x : Digits) : Text :=
  let ds := Text.ofNat x.digits
  if x.point ≤ 0 then text "0." ++ zeros (-x.point) ++ ds
  else if (ds.length : Int) ≤ x.point then ds ++ zeros (x.point - ds.length)
  else ds.take x.point.toNat ++ [Ascii.dot] ++ ds.drop x.point.toNat

/-- A decimal in scientific notation, with at least two digits in the exponent. -/
def Digits.scientific (x : Digits) : Text :=
  let ds := Text.ofNat x.digits
  let exponent := x.point - 1
  let magnitude := Text.ofNat exponent.natAbs
  ds.take 1 ++ (if ds.length = 1 then [] else Ascii.dot :: ds.drop 1) ++
    text (if exponent < 0 then "e-" else "e+") ++ zeros (2 - magnitude.length) ++ magnitude

/-- The sign of a number. -/
def sign (negative : Bool) : Text := if negative then [Ascii.hyphen] else []

/-- How a number is written, given the notation of its digits. -/
def write (style : Digits → Text) : Binary64 → Text
  | .finite negative m e =>
    sign negative ++ if m = 0 then text "0" else style (shortestDigits m e)
  | .infinite negative => text (if negative then "-Inf" else "+Inf")
  | .notANumber => text "NaN"

/-- The number in positional notation. -/
def toPlain : Binary64 → Text := write Digits.positional

/-- The number in scientific notation when it is below `10 ^ -4` or at least `10 ^ 6`, else in
positional notation. -/
def toGeneral : Binary64 → Text :=
  write fun x =>
    if x.point - 1 < -4 ∨ 6 ≤ x.point - 1 then x.scientific else x.positional

end Binary64

end StyleIndex
