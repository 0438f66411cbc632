/-!
# Numbers

Every number of the language is an IEEE 754 binary64 value. A `Number` is kept as its 64-bit
pattern, so that comparison, reading and printing are plain statements about natural numbers; only
the four operations of arithmetic go through the machine.

The 63 bits below the sign are the *rank* of a number. The ranks `0, 1, 2, …` enumerate the
magnitudes `0, 2⁻¹⁰⁷⁴, 2·2⁻¹⁰⁷⁴, …` in increasing order up to `Number.infiniteRank`, and whatever
lies above that rank is not a number.
-/

namespace Egg

/-- A binary64 number, given by its bit pattern: one bit of sign, eleven of exponent and 52 of
fraction, most significant first. -/
structure Number where
  /-- The bit pattern. -/
  bits : UInt64
deriving DecidableEq

namespace Number

/-- The pattern that consists of the sign bit alone. -/
def signBit : UInt64 := 0x8000000000000000

/-- The rank of the infinite magnitude. Smaller ranks are finite, larger ones are not numbers. -/
def infiniteRank : UInt64 := 0x7ff0000000000000

/-- Positive infinity. -/
def infinity : Number := ⟨infiniteRank⟩

/-- The result of an operation that has no value, such as `0 / 0`. -/
def notANumber : Number := ⟨0x7ff8000000000000⟩

/-- Whether the sign bit is set. Negative zero is negative in this sense. -/
def isNegative (n : Number) : Bool := signBit ≤ n.bits

/-- The bits below the sign, which order the magnitudes. -/
def rank (n : Number) : UInt64 := n.bits % signBit

/-- Whether the pattern stands for no value at all. -/
def isNaN (n : Number) : Bool := infiniteRank < n.rank

/-- Whether the magnitude is infinite. -/
def isInfinite (n : Number) : Bool := n.rank == infiniteRank

/-- Whether the number is positive or negative zero. -/
def isZero (n : Number) : Bool := n.rank == 0

/-! ## The exact value of a finite number -/

/-- The power `b ^ k` of natural numbers. The instance is named because the notation finds another one
where algebra is imported. -/
def power (b k : Nat) : Nat := @HPow.hPow Nat Nat Nat (@instHPow Nat Nat instPowNat) b k

/-- The biased exponent, `0` for zero and for the numbers below the normal range. -/
def biasedExponent (n : Number) : Nat := n.rank.toNat / power 2 52

/-- The 52 bits of fraction. -/
def fraction (n : Number) : Nat := n.rank.toNat % power 2 52

/-- The integer `m` in the magnitude `m · 2 ^ q` of a finite number. -/
def significand (n : Number) : Nat :=
  if n.biasedExponent = 0 then n.fraction else power 2 52 + n.fraction

/-- The exponent `q` in the magnitude `m · 2 ^ q` of a finite number. -/
def exponent (n : Number) : Int :=
  if n.biasedExponent = 0 then -1074 else (n.biasedExponent : Int) - 1075

/-- The natural number that a number is equal to, if there is one. Negative zero equals `0`. -/
def toNat? (n : Number) : Option Nat :=
  if n.isNaN || n.isInfinite || (n.isNegative && !n.isZero) then none
  else match n.exponent with
    | .ofNat q => some (n.significand * power 2 q)
    | .negSucc q =>
      let unit := power 2 (q + 1)
      if n.significand % unit = 0 then some (n.significand / unit) else none

/-! ## Comparison -/

/-- Equality of values: both zeros are equal, and what is not a number equals nothing. -/
protected def beq (a b : Number) : Bool :=
  !a.isNaN && !b.isNaN && (a.bits == b.bits || (a.isZero && b.isZero))

instance : BEq Number := ⟨Number.beq⟩

/-- The order of values; what is not a number is below nothing and above nothing. -/
def less (a b : Number) : Bool :=
  !a.isNaN && !b.isNaN &&
    match a.isNegative, b.isNegative with
    | false, false => a.rank < b.rank
    | true, true => b.rank < a.rank
    | true, false => !(a.isZero && b.isZero)
    | false, true => false

/-! ## Arithmetic -/

/-- An operation of the machine, on bit patterns. -/
@[inline]
def viaFloat (f : Float → Float → Float) (a b : Number) : Number :=
  ⟨(f (Float.ofBits a.bits) (Float.ofBits b.bits)).toBits⟩

instance : Add Number := ⟨viaFloat (· + ·)⟩
instance : Sub Number := ⟨viaFloat (· - ·)⟩
instance : Mul Number := ⟨viaFloat (· * ·)⟩
instance : Div Number := ⟨viaFloat (· / ·)⟩

end Number

end Egg
