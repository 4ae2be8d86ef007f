/-!
# Finite binary64 numbers

A `Binary64` is the bit pattern of a finite double: infinities and NaNs are excluded by the type,
because no JSON number stands for them. Arithmetic goes through `Float`; a result that is not finite
has no `Binary64`, and `Binary64.ofFloat?` says so.

The exact value of a pattern is `mantissa * 2 ^ exponent` up to sign, and two patterns are the same
number if they are equal or both are zeros.
-/

namespace SigilExpr

/-- The biased exponent of a bit pattern. -/
def Binary64.biasedExponent (bits : UInt64) : Nat :=
  bits.toNat / Nat.pow 2 52 % Nat.pow 2 11

/-- A finite double, by its bit pattern. -/
structure Binary64 where
  /-- The pattern: one sign bit, eleven exponent bits, fifty-two fraction bits. -/
  bits : UInt64
  /-- The exponent bits are not all ones. -/
  finite : Binary64.biasedExponent bits ≠ 2047 := by decide
deriving DecidableEq

namespace Binary64

/-- The double with this pattern. -/
def toFloat (x : Binary64) : Float :=
  Float.ofBits x.bits

/-- The finite number that a double holds, if it holds one. -/
def ofFloat? (f : Float) : Option Binary64 :=
  if h : biasedExponent f.toBits ≠ 2047 then some ⟨f.toBits, h⟩ else none

/-- The sign bit. -/
def isNegative (x : Binary64) : Bool :=
  decide (Nat.pow 2 63 ≤ x.bits.toNat)

/-- The fifty-two fraction bits. -/
def fraction (x : Binary64) : Nat :=
  x.bits.toNat % Nat.pow 2 52

/-- The significand as a whole number: below `2 ^ 52` for zeros and subnormal numbers, with the
leading one otherwise. -/
def mantissa (x : Binary64) : Nat :=
  if biasedExponent x.bits = 0 then x.fraction else Nat.pow 2 52 + x.fraction

/-- The power of two that the mantissa is multiplied by. -/
def exponent (x : Binary64) : Int :=
  if biasedExponent x.bits = 0 then -1074 else (biasedExponent x.bits : Int) - 1075

/-- One of the two zeros. -/
def isZero (x : Binary64) : Bool :=
  x.mantissa == 0

/-- The pattern is a power of two above the least normal number, so that the neighbour below is
half as far away as the one above. -/
def isBinadeStart (x : Binary64) : Bool :=
  x.fraction == 0 && decide (1 < biasedExponent x.bits)

/-- Equality of numbers: the two zeros are one number, every other number has one pattern. -/
def sameNumber (x y : Binary64) : Bool :=
  x.bits == y.bits || (x.isZero && y.isZero)

theorem sameNumber_self (x : Binary64) : x.sameNumber x = true := by
  simp [sameNumber]

/-- The positive zero. -/
def zero : Binary64 := ⟨0, by decide⟩

/-- The negative zero. -/
def negZero : Binary64 := ⟨0x8000000000000000, by decide⟩

example : zero.sameNumber negZero = true := by decide

example : zero ≠ negZero := by decide

end Binary64

end SigilExpr
