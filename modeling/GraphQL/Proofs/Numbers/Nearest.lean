import GraphQL.Numeric.Shortest
import GraphQL.Proofs.Numbers.Numeral
import GraphQL.Proofs.Numbers.Rounding

/-! The number of 64 bits that is nearest to a literal.

What it is to round a number correctly does not depend on how that is done. No number is
rounded to two numbers with the same sign, and a literal is rounded correctly. -/

namespace GraphQL

/-! ## Signs -/

def signed (isNegative : Bool) (size : ℚ) : ℚ := if isNegative then -size else size

section

variable {first second : Bool} {size size' : ℚ}

theorem abs_signed (first : Bool) (nonneg : 0 ≤ size) : |signed first size| = size := by
  cases first
  · exact abs_of_nonneg nonneg
  · exact (abs_neg size).trans (abs_of_nonneg nonneg)

theorem abs_sub_signed (first : Bool) (size size' : ℚ) :
    |signed first size - signed first size'| = |size - size'| := by
  cases first
  · rfl
  · change |-size - -size'| = _
    rw [← abs_neg]
    congr 1
    ring

theorem abs_sub_le_signed (nonneg : 0 ≤ size) (nonneg' : 0 ≤ size') :
    |size - size'| ≤ |signed first size - signed second size'| := by
  have apart := abs_abs_sub_abs_le (signed first size) (signed second size')
  rwa [abs_signed first nonneg, abs_signed second nonneg'] at apart

theorem eq_zero_of_opposite (nonneg : 0 ≤ size) (nonneg' : 0 ≤ size')
    (different : signed first size' ≠ signed second size')
    (level : |signed first size - signed second size'| = |size - size'|) : size = 0 := by
  have positive : 0 < size' := nonneg'.lt_of_ne fun zero =>
    different (by cases first <;> cases second <;> simp [signed, ← zero])
  have sum : |size + size'| = |size - size'| := by
    cases first <;> cases second
    · exact (different rfl).elim
    · rw [← level]
      change _ = |size - -size'|
      rw [sub_neg_eq_add]
    · rw [← level, ← abs_neg]
      change _ = |-size - size'|
      congr 1
      ring
    · exact (different rfl).elim
  rw [abs_of_nonneg (by linarith)] at sum
  rcases abs_cases (size - size') with ⟨equal, _⟩ | ⟨equal, _⟩ <;> linarith

end

namespace Binary64

/-! ## What bits stand for -/

def value (number : Binary64) : ℚ :=
  signed number.isNegative (valueOfBits number.magnitude)

/-- Of all finite numbers the bits are those of the nearest to the exact one, and of two
as near those of the even one. What is too large for any is infinite. -/
structure Rounds (exact : ℚ) (number : Binary64) : Prop where
  bits_lt : number.bits < 2 ^ 64
  infinite : (2 - 2 ^ (-53 : ℤ)) * 2 ^ 1023 ≤ |exact| → number.magnitude = infinityBits
  finite : |exact| < (2 - 2 ^ (-53 : ℤ)) * 2 ^ 1023 → number.magnitude < infinityBits
  nearest : |exact| < (2 - 2 ^ (-53 : ℤ)) * 2 ^ 1023 →
    ∀ other : Binary64, other.magnitude < infinityBits →
    |exact - number.value| ≤ |exact - other.value|
  even : |exact| < (2 - 2 ^ (-53 : ℤ)) * 2 ^ 1023 →
    ∀ other : Binary64, other.magnitude < infinityBits →
    other.value ≠ number.value → |exact - other.value| = |exact - number.value| →
    number.bits % 2 = 0
  zero : |exact| ≤ 2 ^ (-1075 : ℤ) → number.magnitude = 0

theorem valueOfBits_nonneg (bits : ℕ) : 0 ≤ valueOfBits bits := by
  unfold valueOfBits
  simp only
  split <;> positivity

/-! ## Rounding decimals -/

def sizeOf (decimal : Decimal) : ℚ := decimal.digits * 10 ^ decimal.exponent

section

variable (decimal : Decimal)

theorem bitsOfDecimal_le (digits : ℕ) (exponent : ℤ) :
    bitsOfDecimal digits exponent ≤ infinityBits := by
  obtain ⟨_, _, _, bits⟩ := bitsOfDecimal_scaled digits exponent
  rw [bits]
  exact Nat.min_le_right ..

theorem magnitude_ofDecimal :
    (ofDecimal decimal).magnitude = bitsOfDecimal decimal.digits decimal.exponent := by
  have le := bitsOfDecimal_le decimal.digits decimal.exponent
  unfold magnitude ofDecimal
  unfold infinityBits at le
  simp only [signBit]
  split <;> omega

theorem isNegative_ofDecimal : (ofDecimal decimal).isNegative = decimal.negative := by
  have le := bitsOfDecimal_le decimal.digits decimal.exponent
  unfold isNegative ofDecimal
  unfold infinityBits at le
  simp only [signBit]
  cases decimal.negative <;> simp
  omega

theorem bits_ofDecimal : (ofDecimal decimal).bits < 2 ^ 64 ∧
    (ofDecimal decimal).bits % 2 = (ofDecimal decimal).magnitude % 2 := by
  have le := bitsOfDecimal_le decimal.digits decimal.exponent
  rw [magnitude_ofDecimal]
  unfold ofDecimal
  unfold infinityBits at le
  simp only [signBit]
  split <;> omega

theorem sizeOf_nonneg : 0 ≤ sizeOf decimal := by
  unfold sizeOf
  positivity

theorem value_ofDecimal : (ofDecimal decimal).value =
    signed decimal.negative (valueOfBits (ofDecimal decimal).magnitude) := by
  rw [value, isNegative_ofDecimal]

theorem exists_scaled : ∃ exponent significand,
    Scaled (sizeOf decimal) exponent significand ∧
      (ofDecimal decimal).magnitude =
        min (exponent * 2 ^ 52 + significand) infinityBits := by
  rw [magnitude_ofDecimal]
  exact bitsOfDecimal_scaled decimal.digits decimal.exponent

variable {decimal}

theorem exists_scaled_of_lt (small : sizeOf decimal < overflow) :
    ∃ exponent significand, Scaled (sizeOf decimal) exponent significand ∧
      (ofDecimal decimal).magnitude = exponent * 2 ^ 52 + significand := by
  obtain ⟨exponent, significand, scaled, bits⟩ := exists_scaled decimal
  rw [Nat.min_eq_left (scaled.lt_infinityBits small).le] at bits
  exact ⟨exponent, significand, scaled, bits⟩

theorem nearest_magnitude (small : sizeOf decimal < overflow) (other : Binary64) :
    |sizeOf decimal - valueOfBits (ofDecimal decimal).magnitude| ≤
        |sizeOf decimal - valueOfBits other.magnitude| ∧
      (valueOfBits other.magnitude ≠ valueOfBits (ofDecimal decimal).magnitude →
        |sizeOf decimal - valueOfBits other.magnitude| =
            |sizeOf decimal - valueOfBits (ofDecimal decimal).magnitude| →
          (ofDecimal decimal).magnitude % 2 = 0) := by
  obtain ⟨exponent, significand, scaled, bits⟩ := exists_scaled_of_lt small
  rw [bits, scaled.valueOfBits_eq]
  obtain ⟨near, even⟩ := scaled.nearest other.magnitude
  refine ⟨near, fun different level => ?_⟩
  have := even different level
  omega

theorem magnitude_of_le_underflow (tiny : sizeOf decimal ≤ underflow) :
    (ofDecimal decimal).magnitude = 0 := by
  obtain ⟨exponent, significand, scaled, bits⟩ := exists_scaled decimal
  rw [bits, scaled.eq_zero tiny]
  rfl

/-- If another number is as near with its sign, its size is as near as well and differs,
or the number is zero. -/
theorem even_of_level (small : sizeOf decimal < overflow) {other : Binary64}
    (different : other.value ≠ (ofDecimal decimal).value)
    (level : |signed decimal.negative (sizeOf decimal) - other.value| =
      |signed decimal.negative (sizeOf decimal) - (ofDecimal decimal).value|) :
    (ofDecimal decimal).magnitude % 2 = 0 := by
  have nonneg := sizeOf_nonneg decimal
  obtain ⟨near, even⟩ := nearest_magnitude small other
  rw [value_ofDecimal, abs_sub_signed] at level
  have level' : |sizeOf decimal - valueOfBits other.magnitude| =
      |sizeOf decimal - valueOfBits (ofDecimal decimal).magnitude| :=
    le_antisymm (level ▸ abs_sub_le_signed nonneg (valueOfBits_nonneg _)) near
  by_cases same : valueOfBits other.magnitude =
      valueOfBits (ofDecimal decimal).magnitude
  · rw [← level', value, same] at level
    rw [value_ofDecimal, value, same] at different
    have isZero :=
      eq_zero_of_opposite nonneg (valueOfBits_nonneg _) different.symm level
    rw [magnitude_of_le_underflow (isZero.le.trans (zpow_pos two_pos _).le)]
  · exact even same level'

/-- A decimal number is rounded correctly. -/
theorem rounds_ofDecimal (decimal : Decimal) :
    Rounds (signed decimal.negative (sizeOf decimal)) (ofDecimal decimal) := by
  have nonneg := sizeOf_nonneg decimal
  constructor
  · exact (bits_ofDecimal decimal).1
  · rw [abs_signed _ nonneg]
    intro large
    obtain ⟨exponent, significand, scaled, bits⟩ := exists_scaled decimal
    rw [bits, Nat.min_eq_right (scaled.infinityBits_le large)]
  · rw [abs_signed _ nonneg]
    intro small
    obtain ⟨exponent, significand, scaled, bits⟩ := exists_scaled_of_lt small
    rw [bits]
    exact scaled.lt_infinityBits small
  · rw [abs_signed _ nonneg]
    intro small other _
    rw [value_ofDecimal, abs_sub_signed]
    exact (nearest_magnitude small other).1.trans
      (abs_sub_le_signed nonneg (valueOfBits_nonneg _))
  · rw [abs_signed _ nonneg]
    intro small other _ different level
    rw [(bits_ofDecimal decimal).2]
    exact even_of_level small different level
  · rw [abs_signed _ nonneg]
    exact magnitude_of_le_underflow

end

theorem rounds_ofLiteral (numeral : Numeral) :
    Rounds numeral.value (ofLiteral numeral.text) ∧
      (ofLiteral numeral.text).isNegative = numeral.isNegative := by
  rw [ofLiteral, numeral.ofLiteral_text]
  refine ⟨?_, isNegative_ofDecimal _⟩
  have rounds := rounds_ofDecimal
    ⟨numeral.isNegative, Digits.value (numeral.integer ++ numeral.decimals),
      numeral.exponentValue - numeral.decimals.length⟩
  rwa [sizeOf, ← numeral.size_eq] at rounds

/-! ## What a number is rounded to -/

theorem abs_sub_lt_of_between {exact least middle greatest : ℚ} (first : least < middle)
    (second : middle < greatest) (level : |exact - least| = |exact - greatest|) :
    |exact - middle| < |exact - least| := by
  rcases abs_cases (exact - least) with ⟨left, _⟩ | ⟨left, _⟩ <;>
    rcases abs_cases (exact - greatest) with ⟨right, _⟩ | ⟨right, _⟩ <;>
    rcases abs_cases (exact - middle) with ⟨inside, _⟩ | ⟨inside, _⟩ <;> linarith

namespace Rounds

variable {exact : ℚ} {first second : Binary64}

theorem eq_of_magnitude (rounds : Rounds exact first) (rounds' : Rounds exact second)
    (sign : first.isNegative = second.isNegative)
    (same : first.magnitude = second.magnitude) :
    first = second := by
  have less := rounds.bits_lt
  have less' := rounds'.bits_lt
  have sign : signBit ≤ first.bits ↔ signBit ≤ second.bits := decide_eq_decide.mp sign
  unfold magnitude at same
  unfold signBit at sign same
  have bits : first.bits = second.bits := by omega
  exact congrArg Binary64.mk bits

/-- Two numbers as near as any others cannot be apart: both would be even, and between
them there would be a nearer one. -/
theorem not_magnitude_lt (rounds : Rounds exact first) (rounds' : Rounds exact second)
    (sign : first.isNegative = second.isNegative)
    (small : |exact| < (2 - 2 ^ (-53 : ℤ)) * 2 ^ 1023) :
    ¬ first.magnitude < second.magnitude := by
  intro less
  have finite := rounds.finite small
  have finite' := rounds'.finite small
  have level : |exact - first.value| = |exact - second.value| :=
    le_antisymm (rounds.nearest small second finite') (rounds'.nearest small first finite)
  have sizes := valueOfBits_strictMono less
  have different : first.value ≠ second.value := by
    unfold value
    rw [sign]
    cases second.isNegative
    · exact sizes.ne
    · exact fun same => sizes.ne (neg_inj.mp same)
  have even := rounds.even small second finite' different.symm level.symm
  have even' := rounds'.even small first finite different level
  obtain ⟨middle, middle_magnitude, middle_sign⟩ : ∃ middle : Binary64,
      middle.magnitude = first.magnitude + 1 ∧ middle.isNegative = first.isNegative := by
    unfold infinityBits magnitude signBit at finite
    refine ⟨⟨first.bits + 1⟩, ?_, decide_eq_decide.mpr ?_⟩
    · change (first.bits + 1) % 0x8000000000000000 = first.bits % 0x8000000000000000 + 1
      omega
    · change 0x8000000000000000 ≤ first.bits + 1 ↔ 0x8000000000000000 ≤ first.bits
      omega
  have inside : middle.magnitude < second.magnitude := by
    simp only [magnitude, signBit] at even even' less middle_magnitude ⊢
    omega
  have below : valueOfBits first.magnitude < valueOfBits middle.magnitude :=
    valueOfBits_strictMono (by omega)
  have above := valueOfBits_strictMono inside
  have farther := rounds.nearest small middle (inside.trans finite')
  refine absurd farther (not_le.mpr ?_)
  simp only [value, middle_sign, sign] at level ⊢
  cases isNegative : second.isNegative <;> rw [isNegative] at level
  · exact abs_sub_lt_of_between below above level
  · rw [level]
    exact abs_sub_lt_of_between (neg_lt_neg above) (neg_lt_neg below) level.symm

/-- A number and a sign are rounded to one number. -/
theorem unique (rounds : Rounds exact first) (rounds' : Rounds exact second)
    (sign : first.isNegative = second.isNegative) : first = second := by
  refine rounds.eq_of_magnitude rounds' sign ?_
  rcases lt_or_ge |exact| ((2 - 2 ^ (-53 : ℤ)) * 2 ^ 1023) with small | large
  · exact Nat.le_antisymm
      (Nat.not_lt.mp (rounds'.not_magnitude_lt rounds sign.symm small))
      (Nat.not_lt.mp (rounds.not_magnitude_lt rounds' sign small))
  · rw [rounds.infinite large, rounds'.infinite large]

end Rounds

/-- The literal is a numeral, and the number is what it is rounded to, with its sign. -/
def IsNearest (literal : String) (number : Binary64) : Prop :=
  ∃ numeral : Numeral, numeral.text = literal.toList ∧ Rounds numeral.value number ∧
    number.isNegative = numeral.isNegative

theorem isNearest_iff {literal : String} {number : Binary64} : IsNearest literal number ↔
    Decimal.isLiteral literal.toList = true ∧ ofLiteral literal.toList = number := by
  rw [Numeral.isLiteral_iff]
  constructor
  · rintro ⟨numeral, written, rounds, sign⟩
    obtain ⟨rounds', sign'⟩ := rounds_ofLiteral numeral
    rw [← written]
    exact ⟨⟨numeral, rfl⟩, rounds'.unique rounds (sign'.trans sign.symm)⟩
  · rintro ⟨⟨numeral, written⟩, rfl⟩
    obtain ⟨rounds, sign⟩ := rounds_ofLiteral numeral
    rw [written] at rounds sign
    exact ⟨numeral, written, rounds, sign⟩

end Binary64

end GraphQL
