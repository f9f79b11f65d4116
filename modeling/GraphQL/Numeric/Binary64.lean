import GraphQL.Numeric.Decimal

/-! Floating-point numbers of 64 bits, kept as their bits.

A finite number of this format is `significand · 2 ^ exponent` for a significand
below `2 ^ 53` and an exponent of at least -1074. Rounding is computed on natural
numbers, so it is exact at every step but the one that rounds. -/

namespace GraphQL

/-- The bits of a floating-point number: sign, exponent, fraction. -/
structure Binary64 where
  bits : Nat
  deriving DecidableEq, Repr, Inhabited

namespace Binary64

/-- The bits of positive infinity. The numbers below it are finite. -/
def infinityBits : Nat := 0x7FF0000000000000

def signBit : Nat := 0x8000000000000000

/-- Positive and negative zero differ in their bits only. -/
def isZero (number : Binary64) : Bool :=
  number.bits % signBit == 0

/-- Numbers compare by value, so the two zeros are equal. Literals never make a
number that is not equal to itself. -/
instance : BEq Binary64 where
  beq first second := first.bits == second.bits || (first.isZero && second.isZero)

/-! ## Rounding -/

/-- The natural number nearest to a quotient; halves go to the even neighbour. -/
def roundQuotient (numerator denominator : Nat) : Nat :=
  let quotient := numerator / denominator
  let excess := 2 * (numerator % denominator)
  if excess < denominator then quotient
  else if denominator < excess then quotient + 1
  else if quotient % 2 = 0 then quotient else quotient + 1

/-- The exponent of the largest power of two that is at most a positive quotient. -/
def floorLog2 (numerator denominator : Nat) : Int :=
  let estimate : Int := (numerator.log2 : Int) - denominator.log2
  let reached :=
    if 0 ≤ estimate then denominator <<< estimate.toNat ≤ numerator
    else denominator ≤ numerator <<< (-estimate).toNat
  if reached then estimate else estimate - 1

/-- The bits of `significand · 2 ^ exponent`, for a significand of at most
`2 ^ 53` that is at least `2 ^ 52` unless the exponent is least. A significand of
`2 ^ 53` carries into the exponent, and what has become too large is infinite. -/
def encode (significand : Nat) (exponent : Int) : Nat :=
  min ((exponent + 1074).toNat <<< 52 + significand) infinityBits

/-- The bits of the number nearest to a positive quotient. -/
def bitsOfQuotient (numerator denominator : Nat) : Nat :=
  let exponent := max (floorLog2 numerator denominator - 52) (-1074)
  let significand :=
    if 0 ≤ exponent then roundQuotient numerator (denominator <<< exponent.toNat)
    else roundQuotient (numerator <<< (-exponent).toNat) denominator
  encode significand exponent

/-- The bits of the number nearest to `digits · 10 ^ exponent`. The powers of ten
beyond which all is infinite or zero are told apart first, so that no larger one
is ever computed. -/
def bitsOfDecimal (digits : Nat) (exponent : Int) : Nat :=
  let magnitude : Int := exponent + (Nat.toDigits 10 digits).length
  if digits = 0 ∨ magnitude < -330 then 0
  else if 320 < magnitude then infinityBits
  else if 0 ≤ exponent then bitsOfQuotient (digits * Nat.pow 10 exponent.toNat) 1
  else bitsOfQuotient digits (Nat.pow 10 (-exponent).toNat)

/-- The number nearest to a decimal one. Zero keeps its sign. -/
def ofDecimal (decimal : Decimal) : Binary64 :=
  let bits := bitsOfDecimal decimal.digits decimal.exponent
  ⟨if decimal.negative then signBit + bits else bits⟩

def ofLiteral (literal : List Char) : Binary64 :=
  ofDecimal (.ofLiteral literal)

example : (ofLiteral "1.5".toList).bits = 0x3FF8000000000000 := by decide +kernel
example : (ofLiteral "4.9e-324".toList).bits = 1 := by decide +kernel
example : (ofLiteral "-1e400".toList).bits = 0xFFF0000000000000 := by decide +kernel
example : (ofLiteral "1.7976931348623157e308".toList).bits = infinityBits - 1 := by
  decide +kernel

end Binary64

end GraphQL
