import Egg.Number.Shortest

/-!
# How numbers are written

One shortest decimal serves three notations. Programs show numbers in *plain* notation, which has no
exponent and no sign on zero. Dumps of run-time values are plain too, but keep the sign of zero and
use their own words for infinity. Dumps of literals mark every number as a fraction and change to an
exponent for magnitudes far from one.
-/

namespace Egg.Number

namespace Decimal

/-- Positional notation, padded with zeros up to the decimal point: `1500`, `1.5`, `0.0015`. -/
def positional (d : Decimal) : List Char :=
  match d.point with
  | .ofNat p =>
    if p = 0 then '0' :: '.' :: d.digits
    else if d.digits.length ≤ p then d.digits ++ List.replicate (p - d.digits.length) '0'
    else d.digits.take p ++ '.' :: d.digits.drop p
  | .negSucc p => '0' :: '.' :: (List.replicate (p + 1) '0' ++ d.digits)

/-- Whether the decimal is an integer. -/
def isIntegral (d : Decimal) : Bool := (d.digits.length : Int) ≤ d.point

/-- Scientific notation, with one digit before the point and none after it if there is only one
digit: `1.5e20`, `5e-324`. -/
def scientific (d : Decimal) : List Char :=
  let mantissa := match d.digits with
    | [] => []
    | [c] => [c]
    | c :: rest => c :: '.' :: rest
  mantissa ++ 'e' :: (toString (d.point - 1)).toList

end Decimal

/-- A magnitude written by `f`, after a minus sign if the number is negative. -/
def signed (n : Number) (f : Decimal → List Char) : List Char :=
  if n.isNegative then '-' :: f n.shortest else f n.shortest

/-- The text that programs see: integers without a fraction, zero without a sign, and words for what
is not finite. -/
def display (n : Number) : List Char :=
  if n.isNaN then "NaN".toList
  else if n.isInfinite then if n.isNegative then "-Infinity".toList else "Infinity".toList
  else if n.isZero then ['0']
  else n.signed Decimal.positional

/-- The text of an infinite magnitude in dumps, with its sign. -/
def infinityDump (n : Number) : List Char :=
  if n.isNegative then "-inf".toList else "inf".toList

/-- The text of a run-time number in a dump: plain, with the sign of zero kept. -/
def valueDump (n : Number) : List Char :=
  if n.isNaN then "NaN".toList
  else if n.isInfinite then n.infinityDump
  else if n.isZero then if n.isNegative then "-0".toList else "0".toList
  else n.signed Decimal.positional

/-- Literals in a dump have a fraction, `.0` if need be, and an exponent from `10 ^ 16` upwards and
below `10 ^ -4`. -/
def literalDecimal (d : Decimal) : List Char :=
  if d.point ≤ -4 || 17 ≤ d.point then d.scientific
  else if d.isIntegral then d.positional ++ ['.', '0']
  else d.positional

/-- The text of a number literal in a dump. -/
def literalDump (n : Number) : List Char :=
  if n.isNaN then "NaN".toList
  else if n.isInfinite then n.infinityDump
  else if n.isZero then if n.isNegative then "-0.0".toList else "0.0".toList
  else n.signed literalDecimal

end Egg.Number
