import Egg.Number.Basic

/-!
# The number nearest to a natural number

Numerals are written in decimal at any length, so the value they denote has to be rounded. The
rule is the usual one: the nearest number, and of two equally near ones the one whose significand
is even. Everything is computed on exact natural numbers.
-/

namespace Egg.Number

/-- The natural number nearest to `a / b`; of two equally near ones, the even one. -/
def roundQuotient (a b : Nat) : Nat :=
  let q := a / b
  let r := a % b
  if 2 * r < b then q
  else if b < 2 * r then q + 1
  else q + q % 2

/-- The rank of the magnitude nearest to `n`.

With `k = ⌊log₂ n⌋`, the magnitudes around `n` are the multiples of `2 ^ (k - 52)`, so the
significand is `n / 2 ^ (k - 52)` rounded. Ranks continue across powers of two: a significand that
rounds up to `2 ^ 53` gives the first rank of the next exponent without a special case. -/
def nearestRank (n : Nat) : Nat :=
  if n = 0 then 0
  else
    let k := n.log2
    let steps := power 2 52
    min ((k + 1022) * steps + roundQuotient (n * steps) (power 2 k)) infiniteRank.toNat

/-- The number nearest to `n`, infinite if `n` is at least half a step beyond the largest finite
number. -/
def ofNat (n : Nat) : Number := ⟨UInt64.ofNat (nearestRank n)⟩

/-- The number that a run of decimal digits denotes. -/
def ofDigits (digits : List Char) : Number := ofNat (Nat.ofDigitChars 10 digits 0)

end Egg.Number
