import Egg.Number.Basic

/-!
# The shortest decimal of a number

A finite number is printed with as few digits as read back to it. The decimals that read back to a
magnitude `m · 2 ^ q` fill an interval around it, bounded by the midpoints to its two neighbours;
the midpoints themselves belong to it if `m` is even, because ties are read towards the even
significand. For one digit, two digits and so on, the two decimals of that length around the
magnitude are tested against the interval, and the first length with a hit wins.

Seventeen digits always suffice, so the magnitude is first scaled by a power of ten that brings its
integer part to seventeen digits, and every candidate is then a natural number.
-/

namespace Egg.Number

/-- A positive decimal `0.d₁d₂…dₙ · 10 ^ point`. -/
structure Decimal where
  /-- The digits `d₁d₂…dₙ`. The first and the last of them are not `0`. -/
  digits : List Char
  /-- How many places the decimal point stands to the right of the start of the digits. -/
  point : Int
deriving DecidableEq

/-- The decimals that read back to a magnitude, scaled: a real number `x` stands for
`x · unit`, and the decimals under consideration are natural numbers. -/
structure Interval where
  /-- The lower end times `unit`. -/
  low : Nat
  /-- The magnitude times `unit`. -/
  middle : Nat
  /-- The upper end times `unit`. -/
  high : Nat
  /-- The scale. -/
  unit : Nat
  /-- Whether the ends belong to the interval. -/
  closed : Bool

namespace Interval

/-- Whether the natural number `c` lies in the interval. -/
def holds (i : Interval) (c : Nat) : Bool :=
  let x := c * i.unit
  if i.closed then i.low ≤ x && x ≤ i.high else i.low < x && x < i.high

/-- Of the two multiples of `step` around the magnitude the one in the interval, and if both are,
the nearer one, the upper one in a tie. -/
def candidate? (i : Interval) (step : Nat) : Option Nat :=
  let below := i.middle / (i.unit * step) * step
  let above := below + step
  match i.holds below, i.holds above with
  | true, true =>
    some (if i.middle - below * i.unit < above * i.unit - i.middle then below else above)
  | true, false => some below
  | false, true => some above
  | false, false => none

/-- The candidate with the largest step among `10 ^ k`, …, `10`, `1`, and failing that the integer
part of the magnitude. -/
def coarsest (i : Interval) : Nat → Nat
  | 0 => (i.candidate? 1).getD (i.middle / i.unit)
  | k + 1 => (i.candidate? (power 10 (k + 1))).getD (i.coarsest k)

end Interval

/-- The number of decimal digits of `n`, with none for `0`: the least `j` with `n < 10 ^ j`. -/
def decimalLength (n : Nat) : Nat := if n = 0 then 0 else (Nat.toDigits 10 n).length

/-- For a positive `a / b`, the integer `k` with `10 ^ (k - 1) ≤ a / b < 10 ^ k`. -/
def decimalPoint (a b : Nat) : Int :=
  if b ≤ a then decimalLength (a / b) else 1 - (decimalLength ((b - 1) / a) : Int)

/-- Whether the next smaller magnitude is only half as far away as the next larger one: the number
starts a range of exponents, and is not the smallest to do so. -/
def hasNarrowGapBelow (n : Number) : Bool := n.fraction == 0 && 1 < n.biasedExponent

/-- The interval of a positive finite number, scaled by the power of ten that puts the decimal point
behind the seventeenth digit, together with the place of the point in the unscaled number.

In quarters of `2 ^ exponent` the magnitude is `4 · significand`, and the midpoints to its
neighbours are two quarters away, or one where the gap below is narrow. -/
def interval (n : Number) : Interval × Int :=
  let m := n.significand
  let up := power 2 n.exponent.toNat
  let down := 4 * power 2 (-n.exponent).toNat
  let point := decimalPoint (4 * m * up) down
  let scale := power 10 (17 - point).toNat * up
  let gapBelow := if n.hasNarrowGapBelow then 1 else 2
  ({ low := (4 * m - gapBelow) * scale
     middle := 4 * m * scale
     high := (4 * m + 2) * scale
     unit := down * power 10 (point - 17).toNat
     closed := m % 2 == 0 }, point)

/-- The decimal of fewest digits that reads back to the magnitude of a positive finite number, the
nearest to it of those. -/
def shortest (n : Number) : Decimal :=
  let (i, point) := n.interval
  let digits := Nat.toDigits 10 (i.coarsest 16)
  { digits := (digits.reverse.dropWhile (· == '0')).reverse
    point := point - 17 + digits.length }

end Egg.Number
