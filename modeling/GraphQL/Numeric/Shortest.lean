import GraphQL.Numeric.Binary64

/-! The shortest decimals for floating-point numbers.

Many decimals are rounded to the same number. The one that stands for it has the
fewest digits, and of two with equally many it is the nearer one. -/

namespace GraphQL.Binary64

def magnitude (number : Binary64) : Nat :=
  number.bits % signBit

def isNegative (number : Binary64) : Bool :=
  signBit ≤ number.bits

def isFinite (number : Binary64) : Bool :=
  number.magnitude < infinityBits

/-- The quotient that a finite number without sign is equal to. -/
def quotientOfBits (magnitude : Nat) : Nat × Nat :=
  let exponent := magnitude >>> 52
  let fraction := magnitude % 0x10000000000000
  if exponent = 0 then (fraction, 1 <<< 1074)
  else
    let significand := 0x10000000000000 + fraction
    (significand <<< (exponent - 1075), 1 <<< (1075 - exponent))

/-- The multiples of a power of ten that are next to a quotient, with the nearest
in front. -/
def multiplesNear (numerator denominator : Nat) (exponent : Int) : List Nat :=
  let numerator := numerator * Nat.pow 10 (-exponent).toNat
  let denominator := denominator * Nat.pow 10 exponent.toNat
  [roundQuotient numerator denominator, numerator / denominator,
    numerator / denominator + 1]

/-- Looks for multiples of a power of ten that are rounded to the number with
the given bits, then among those of the `limit` powers below it. -/
def searchDecimal (bits numerator denominator : Nat) :
    (limit : Nat) → (exponent : Int) → Nat × Int
  | 0, exponent => (numerator / denominator, exponent)
  | limit + 1, exponent =>
      let near := multiplesNear numerator denominator exponent
      match near.find? (bitsOfDecimal · exponent == bits) with
      | some digits => (digits, exponent)
      | none => searchDecimal bits numerator denominator limit (exponent - 1)

/-- The shortest decimal that is rounded to a finite number. The search begins at
a power of ten above the number, for which its logarithm of base two is enough,
and takes at most seventeen steps from the first digit on. -/
def shortest (number : Binary64) : Decimal :=
  if number.isZero then ⟨number.isNegative, 0, 0⟩
  else
    let (numerator, denominator) := quotientOfBits number.magnitude
    let above := (floorLog2 numerator denominator + 1) * 30103 / 100000 + 1
    let (digits, exponent) :=
      searchDecimal number.magnitude numerator denominator 20 above
    ⟨number.isNegative, digits, exponent⟩

example : shortest ⟨0x3FF8000000000000⟩ = ⟨false, 15, -1⟩ := by decide +kernel
example : shortest ⟨1⟩ = ⟨false, 5, -324⟩ := by decide +kernel
example : shortest ⟨0x44B52D02C7E14AF6⟩ = ⟨false, 1, 23⟩ := by decide +kernel
example : shortest ⟨infinityBits - 1⟩ = ⟨false, 17976931348623157, 292⟩ := by
  decide +kernel

end GraphQL.Binary64
