import GraphQL.Numeric.Binary64
import Mathlib.Algebra.Order.Field.Power
import Mathlib.Data.Nat.Log
import Mathlib.Data.Rat.Cast.Order
import Mathlib.Tactic.FieldSimp
import Mathlib.Tactic.Linarith
import Mathlib.Tactic.Positivity
import Mathlib.Tactic.Ring

/-! The number nearest to a quotient.

The bits of a finite number are read as a significand and an exponent. To round a number
is to choose the exponent that it has, and then the nearest of the significands, of two
that are equally near the even one. No number of any other exponent is nearer. -/

namespace GraphQL.Binary64

/-! ## Values -/

/-- The distance between neighbours among the numbers of an exponent,
counted from the least -/
def spacing (exponent : ℕ) : ℚ := 2 ^ ((exponent : ℤ) - 1074)

/-- The number that bits without a sign stand for: the fraction alone if the exponent is
the least, else with a leading one -/
def valueOfBits (bits : ℕ) : ℚ :=
  let exponent : ℕ := bits / 2 ^ 52
  let fraction : ℕ := bits % 2 ^ 52
  if exponent = 0 then fraction * 2 ^ (-1074 : ℤ)
    else (2 ^ 52 + fraction) * 2 ^ ((exponent : ℤ) - 1075)

theorem spacing_pos (exponent : ℕ) : 0 < spacing exponent := zpow_pos two_pos _

theorem spacing_add (exponent more : ℕ) :
    spacing (exponent + more) = 2 ^ more * spacing exponent := by
  rw [spacing, spacing, ← zpow_natCast, ← zpow_add₀ two_ne_zero]
  congr 1
  push_cast
  ring

theorem spacing_le {exponent other : ℕ} (le : exponent ≤ other) :
    spacing exponent ≤ spacing other :=
  zpow_le_zpow_right₀ one_le_two (by omega)

theorem valueOfBits_subnormal {bits : ℕ} (small : bits < 2 ^ 52) :
    valueOfBits bits = bits * spacing 0 := by
  have exponent : bits / 2 ^ 52 = 0 := Nat.div_eq_of_lt small
  rw [valueOfBits]
  simp only [exponent, if_true, Nat.mod_eq_of_lt small]
  rfl

theorem valueOfBits_normal {exponent fraction : ℕ} (small : fraction < 2 ^ 52) :
    valueOfBits ((exponent + 1) * 2 ^ 52 + fraction) =
      (2 ^ 52 + fraction) * spacing exponent := by
  have quotient : ((exponent + 1) * 2 ^ 52 + fraction) / 2 ^ 52 = exponent + 1 := by omega
  have remainder : ((exponent + 1) * 2 ^ 52 + fraction) % 2 ^ 52 = fraction := by omega
  rw [valueOfBits]
  simp only [quotient, remainder, Nat.succ_ne_zero, if_false, spacing]
  congr 2
  push_cast
  ring

/-- A significand of `2 ^ 53` carries into the exponent, and so stands for
what it should. -/
theorem valueOfBits_encoded {exponent significand : ℕ} (most : significand ≤ 2 ^ 53)
    (least : exponent = 0 ∨ 2 ^ 52 ≤ significand) :
    valueOfBits (exponent * 2 ^ 52 + significand) = significand * spacing exponent := by
  rcases Nat.lt_or_ge significand (2 ^ 52) with small | large
  · obtain rfl : exponent = 0 := least.resolve_right (by omega)
    rw [Nat.zero_mul, Nat.zero_add, valueOfBits_subnormal small]
  · obtain ⟨fraction, rfl⟩ := Nat.exists_eq_add_of_le large
    rcases Nat.lt_or_ge fraction (2 ^ 52) with small | carries
    · have split : exponent * 2 ^ 52 + (2 ^ 52 + fraction) =
          (exponent + 1) * 2 ^ 52 + fraction := by ring
      rw [split, valueOfBits_normal small]
      push_cast
      rfl
    · obtain rfl : fraction = 2 ^ 52 := by omega
      have split : exponent * 2 ^ 52 + (2 ^ 52 + 2 ^ 52) =
          (exponent + 1 + 1) * 2 ^ 52 + 0 := by ring
      rw [split, valueOfBits_normal (by norm_num), spacing_add exponent 1]
      push_cast
      ring

theorem valueOfBits_strictMono : StrictMono valueOfBits := by
  refine strictMono_nat_of_lt_succ fun bits => ?_
  obtain ⟨exponent, significand, rfl, less, least⟩ : ∃ exponent significand,
      bits = exponent * 2 ^ 52 + significand ∧ significand < 2 ^ 53 ∧
        (exponent = 0 ∨ 2 ^ 52 ≤ significand) :=
    ⟨bits / 2 ^ 52 - 1, bits - (bits / 2 ^ 52 - 1) * 2 ^ 52, by omega, by omega, by omega⟩
  rw [Nat.add_assoc, valueOfBits_encoded less.le least,
    valueOfBits_encoded less (least.imp_right Nat.le_succ_of_le)]
  push_cast
  exact mul_lt_mul_of_pos_right (lt_add_one _) (spacing_pos exponent)

theorem valueOfBits_on_grid (bits exponent : ℕ) :
    (∃ significand : ℕ, valueOfBits bits = significand * spacing exponent) ∨
      exponent ≠ 0 ∧ valueOfBits bits < 2 ^ 52 * spacing exponent := by
  rcases Nat.lt_or_ge bits (2 ^ 52) with small | large
  · rw [valueOfBits_subnormal small]
    cases exponent with
    | zero => exact .inl ⟨bits, rfl⟩
    | succ exponent =>
        have less : (bits : ℚ) < 2 ^ 52 := by exact_mod_cast small
        refine .inr ⟨Nat.succ_ne_zero _, ?_⟩
        calc (bits : ℚ) * spacing 0 < 2 ^ 52 * spacing 0 :=
          mul_lt_mul_of_pos_right less (spacing_pos 0)
            _ ≤ 2 ^ 52 * spacing (exponent + 1) :=
              mul_le_mul_of_nonneg_left (spacing_le (Nat.zero_le _)) (by positivity)
  · obtain ⟨own, fraction, less, rfl⟩ :
        ∃ own fraction, fraction < 2 ^ 52 ∧ bits = (own + 1) * 2 ^ 52 + fraction :=
      ⟨bits / 2 ^ 52 - 1, bits % 2 ^ 52, Nat.mod_lt _ (by norm_num), by omega⟩
    rw [valueOfBits_normal less]
    rcases Nat.lt_or_ge own exponent with lower | higher
    · obtain ⟨more, rfl⟩ := Nat.exists_eq_add_of_lt lower
      have less' : (fraction : ℚ) < 2 ^ 52 := by exact_mod_cast less
      refine .inr ⟨by omega, ?_⟩
      calc (2 ^ 52 + (fraction : ℚ)) * spacing own < 2 ^ 53 * spacing own :=
            mul_lt_mul_of_pos_right (by linarith) (spacing_pos own)
        _ = 2 ^ 52 * spacing (own + 1) := by rw [spacing_add own 1]; ring
        _ ≤ 2 ^ 52 * spacing (own + more + 1) :=
            mul_le_mul_of_nonneg_left (spacing_le (by omega)) (by positivity)
    · obtain ⟨more, rfl⟩ := Nat.exists_eq_add_of_le higher
      refine .inl ⟨(2 ^ 52 + fraction) * 2 ^ more, ?_⟩
      rw [spacing_add]
      push_cast
      ring

/-! ## Rounding -/

/-- A number has the exponent, and the significand is the nearest to it. -/
structure Scaled (number : ℚ) (exponent significand : ℕ) : Prop where
  nonneg : 0 ≤ number / spacing exponent
  small : number / spacing exponent < 2 ^ 53
  large : exponent = 0 ∨ 2 ^ 52 ≤ number / spacing exponent
  near : |number / spacing exponent - significand| ≤ 1 / 2
  even : |number / spacing exponent - significand| = 1 / 2 → significand % 2 = 0

namespace Scaled

variable {number : ℚ} {exponent significand : ℕ}

theorem significand_le (scaled : Scaled number exponent significand) :
    significand ≤ 2 ^ 53 := by
  have near := (abs_le.mp scaled.near).1
  have small := scaled.small
  have less : (significand : ℚ) < 2 ^ 53 + 1 := by linarith
  exact Nat.le_of_lt_succ (by exact_mod_cast less)

theorem le_significand (scaled : Scaled number exponent significand) :
    exponent = 0 ∨ 2 ^ 52 ≤ significand := by
  refine scaled.large.imp_right fun large => ?_
  have near := (abs_le.mp scaled.near).2
  have less : (2 ^ 52 : ℚ) < significand + 1 := by linarith
  exact Nat.le_of_lt_succ (by exact_mod_cast less)

theorem valueOfBits_eq (scaled : Scaled number exponent significand) :
    valueOfBits (exponent * 2 ^ 52 + significand) = significand * spacing exponent :=
  valueOfBits_encoded scaled.significand_le scaled.le_significand

theorem abs_sub_mul (number other : ℚ) (exponent : ℕ) :
    |number - other * spacing exponent| =
        |number / spacing exponent - other| * spacing exponent := by
  have positive := spacing_pos exponent
  rw [← abs_of_pos positive, ← abs_mul, abs_of_pos positive, sub_mul,
    div_mul_cancel₀ _ positive.ne']

/-- No number is nearer than the one chosen, and if another is as near, the
one chosen is even. -/
theorem nearest (scaled : Scaled number exponent significand) (bits : ℕ) :
    |number - significand * spacing exponent| ≤ |number - valueOfBits bits| ∧
      (valueOfBits bits ≠ significand * spacing exponent →
        |number - valueOfBits bits| = |number - significand * spacing exponent| →
            significand % 2 = 0) := by
  have positive := spacing_pos exponent
  rcases valueOfBits_on_grid bits exponent with ⟨other, equal⟩ | ⟨nonzero, less⟩
  · rw [equal, abs_sub_mul, abs_sub_mul]
    by_cases same : other = significand
    · subst same
      exact ⟨le_rfl, fun different => (different rfl).elim⟩
    · -- Whole numbers that differ are apart by one at least.
      have apart : (1 : ℚ) ≤ |(other : ℚ) - significand| := by
        have : (1 : ℤ) ≤ |(other : ℤ) - significand| := Int.one_le_abs (by omega)
        exact_mod_cast this
      have farther : 1 / 2 ≤ |number / spacing exponent - other| := by
        have split := abs_sub_le (other : ℚ) (number / spacing exponent) significand
        rw [abs_sub_comm (other : ℚ) (number / spacing exponent)] at split
        linarith [scaled.near]
      refine ⟨mul_le_mul_of_nonneg_right (scaled.near.trans farther) positive.le,
        fun _ level => scaled.even ?_⟩
      exact le_antisymm scaled.near
        (farther.trans (mul_right_cancel₀ positive.ne' level).le)
  · -- Numbers of a smaller exponent are behind the least significand of this one.
    have large := scaled.large.resolve_left nonzero
    have reached : 2 ^ 52 * spacing exponent ≤ number := (le_div_iff₀ positive).mp large
    have least : (2 ^ 52 : ℚ) ≤ significand := by
      exact_mod_cast scaled.le_significand.resolve_left nonzero
    have closer : |number / spacing exponent - significand| ≤
        number / spacing exponent - 2 ^ 52 := by
      rcases eq_or_lt_of_le least with same | more
      · rw [← same, abs_of_nonneg (by linarith)]
      · have more' : (2 ^ 52 : ℚ) + 1 ≤ significand := by exact_mod_cast more
        have near := abs_le.mp scaled.near
        linarith [scaled.near]
    have strict :
        |number - significand * spacing exponent| < |number - valueOfBits bits| := by
      calc |number - significand * spacing exponent|
          = |number / spacing exponent - significand| * spacing exponent := abs_sub_mul ..
        _ ≤ (number / spacing exponent - 2 ^ 52) * spacing exponent :=
          mul_le_mul_of_nonneg_right closer positive.le
        _ = number - 2 ^ 52 * spacing exponent := by
          rw [sub_mul, div_mul_cancel₀ _ positive.ne']
        _ < number - valueOfBits bits := by linarith
        _ ≤ |number - valueOfBits bits| := le_abs_self _
    exact ⟨strict.le, fun _ level => (strict.ne' level).elim⟩

end Scaled

/-! ## Quotients -/

variable {numerator denominator : ℕ}

theorem roundQuotient_near (numerator : ℕ) (positive : 0 < denominator) :
    |(numerator : ℚ) / denominator - roundQuotient numerator denominator| ≤ 1 / 2 ∧
      (|(numerator : ℚ) / denominator - roundQuotient numerator denominator| = 1 / 2 →
        roundQuotient numerator denominator % 2 = 0) := by
  have positive' : (0 : ℚ) < denominator := by exact_mod_cast positive
  generalize quotient_eq : numerator / denominator = quotient
  generalize remainder_eq : numerator % denominator = remainder
  have whole : (numerator : ℚ) / denominator = quotient + remainder / denominator := by
    have split : numerator = denominator * quotient + remainder := by
      rw [← quotient_eq, ← remainder_eq, Nat.div_add_mod]
    rw [div_eq_iff positive'.ne', add_mul, div_mul_cancel₀ _ positive'.ne', split]
    push_cast
    ring
  have nonneg : (0 : ℚ) ≤ remainder / denominator := by positivity
  have less : (remainder : ℚ) / denominator < 1 := by
    rw [div_lt_one positive', ← remainder_eq]
    exact_mod_cast Nat.mod_lt _ positive
  rw [whole, roundQuotient, quotient_eq, remainder_eq]
  split
  next low =>
    have low' : (remainder : ℚ) / denominator < 1 / 2 := by
      rw [div_lt_iff₀ positive']
      have : (2 * remainder : ℚ) < denominator := by exact_mod_cast low
      linarith
    rw [add_sub_cancel_left, abs_of_nonneg nonneg]
    exact ⟨low'.le, fun tie => (low'.ne tie).elim⟩
  next notLow =>
  split
  next high =>
    have high' : 1 / 2 < (remainder : ℚ) / denominator := by
      rw [lt_div_iff₀ positive']
      have : (denominator : ℚ) < 2 * remainder := by exact_mod_cast high
      linarith
    push_cast
    rw [add_sub_add_left_eq_sub, abs_of_neg (by linarith)]
    exact ⟨by linarith, fun tie => by linarith⟩
  next notHigh =>
    have half : (remainder : ℚ) / denominator = 1 / 2 := by
      rw [div_eq_iff positive'.ne']
      have : (2 * remainder : ℚ) = denominator := by
        exact_mod_cast (by omega : 2 * remainder = denominator)
      linarith
    rw [half]
    split
    next isEven =>
      rw [add_sub_cancel_left]
      exact ⟨(abs_of_pos one_half_pos).le, fun _ => isEven⟩
    next isOdd =>
      push_cast
      rw [add_sub_add_left_eq_sub]
      exact ⟨by norm_num [abs_le], fun _ => by omega⟩

theorem two_zpow_le_iff (positive : 0 < denominator) (exponent : ℤ) :
    (if 0 ≤ exponent then denominator <<< exponent.toNat ≤ numerator
      else denominator ≤ numerator <<< (-exponent).toNat) ↔
        (2 : ℚ) ^ exponent ≤ numerator / denominator := by
  have rational : (0 : ℚ) < denominator := by exact_mod_cast positive
  rw [le_div_iff₀ rational, Nat.shiftLeft_eq, Nat.shiftLeft_eq]
  split
  next nonneg =>
    obtain ⟨power, rfl⟩ := Int.eq_ofNat_of_zero_le nonneg
    rw [zpow_natCast, mul_comm]
    norm_cast
  next negative =>
    obtain ⟨power, equal⟩ := Int.eq_ofNat_of_zero_le (by omega : 0 ≤ -exponent)
    obtain rfl : exponent = -(power : ℤ) := by omega
    rw [zpow_neg, zpow_natCast, inv_mul_le_iff₀ (by positivity), mul_comm, neg_neg]
    norm_cast

theorem floorLog2_spec (positive : 0 < numerator) (positive' : 0 < denominator) :
    (2 : ℚ) ^ floorLog2 numerator denominator ≤ numerator / denominator ∧
      (numerator : ℚ) / denominator < 2 ^ (floorLog2 numerator denominator + 1) := by
  have rational : (0 : ℚ) < denominator := by exact_mod_cast positive'
  have upper : (numerator : ℚ) < 2 ^ ((numerator.log2 : ℤ) + 1) := by
    exact_mod_cast Nat.lt_log2_self
  have lower : (2 : ℚ) ^ (numerator.log2 : ℤ) ≤ numerator := by
    exact_mod_cast Nat.log2_self_le positive.ne'
  have upper' : (denominator : ℚ) < 2 ^ ((denominator.log2 : ℤ) + 1) := by
    exact_mod_cast Nat.lt_log2_self
  have lower' : (2 : ℚ) ^ (denominator.log2 : ℤ) ≤ denominator := by
    exact_mod_cast Nat.log2_self_le positive'.ne'
  unfold floorLog2
  simp only [two_zpow_le_iff positive']
  generalize (numerator.log2 : ℤ) = first at *
  generalize (denominator.log2 : ℤ) = second at *
  split
  next reached =>
    refine ⟨reached, (div_lt_iff₀ rational).mpr (upper.trans_le ?_)⟩
    calc (2 : ℚ) ^ (first + 1) = 2 ^ (first - second + 1) * 2 ^ second := by
          rw [← zpow_add₀ two_ne_zero]; congr 1; omega
      _ ≤ 2 ^ (first - second + 1) * denominator :=
        mul_le_mul_of_nonneg_left lower' (by positivity)
  next missed =>
    refine ⟨(le_div_iff₀ rational).mpr (le_trans ?_ lower), by
      rw [Int.sub_add_cancel]; exact not_le.mp missed⟩
    calc (2 : ℚ) ^ (first - second - 1) * denominator ≤
      2 ^ (first - second - 1) * 2 ^ (second + 1) :=
          mul_le_mul_of_nonneg_left upper'.le (by positivity)
      _ = 2 ^ first := by rw [← zpow_add₀ two_ne_zero]; congr 1; omega

theorem exists_shifted (numerator : ℕ) (positive : 0 < denominator) (exponent : ℤ) :
    ∃ above below : ℕ, 0 < below ∧
    (numerator : ℚ) / denominator / 2 ^ exponent = above / below ∧
      (if 0 ≤ exponent then roundQuotient numerator (denominator <<< exponent.toNat)
        else roundQuotient (numerator <<< (-exponent).toNat) denominator) =
          roundQuotient above below := by
  split
  next nonneg =>
    obtain ⟨power, rfl⟩ := Int.eq_ofNat_of_zero_le nonneg
    refine ⟨_, _, ?_, ?_, rfl⟩
    · rw [Nat.shiftLeft_eq]
      positivity
    · rw [Nat.shiftLeft_eq, div_div]
      push_cast
      rfl
  next negative =>
    obtain ⟨power, equal⟩ := Int.eq_ofNat_of_zero_le (by omega : 0 ≤ -exponent)
    obtain rfl : exponent = -(power : ℤ) := by omega
    refine ⟨_, _, positive, ?_, rfl⟩
    rw [Nat.shiftLeft_eq, zpow_neg, div_inv_eq_mul, neg_neg, div_mul_eq_mul_div]
    push_cast
    rfl

theorem bitsOfQuotient_scaled (positive : 0 < numerator) (positive' : 0 < denominator) :
    ∃ exponent significand, Scaled (numerator / denominator) exponent significand ∧
      bitsOfQuotient numerator denominator =
        min (exponent * 2 ^ 52 + significand) infinityBits := by
  obtain ⟨lower, upper⟩ := floorLog2_spec positive positive'
  unfold bitsOfQuotient
  generalize floorLog2 numerator denominator = log at *
  simp only
  generalize exponent_eq : max (log - 52) (-1074) = exponent
  obtain ⟨counted, equal⟩ := Int.eq_ofNat_of_zero_le (by omega : 0 ≤ exponent + 1074)
  have spacing_eq : spacing counted = 2 ^ exponent := by
    rw [spacing]
    congr 1
    omega
  obtain ⟨above, below, positive'', shifted, rounded⟩ :=
    exists_shifted numerator positive' exponent
  obtain ⟨near, even⟩ := roundQuotient_near above positive''
  rw [← shifted, ← spacing_eq] at near even
  refine ⟨counted, roundQuotient above below, ⟨?_, ?_, ?_, near, even⟩, ?_⟩
  · rw [spacing_eq, shifted]
    positivity
  · rw [div_lt_iff₀ (spacing_pos _), spacing_eq]
    calc (numerator : ℚ) / denominator < 2 ^ (log + 1) := upper
      _ ≤ 2 ^ (53 + exponent) := zpow_le_zpow_right₀ one_le_two (by omega)
      _ = 2 ^ 53 * 2 ^ exponent := zpow_add₀ two_ne_zero ..
  · rcases Nat.eq_zero_or_pos counted with least | more
    · exact .inl least
    · right
      rw [le_div_iff₀ (spacing_pos _), spacing_eq]
      calc (2 : ℚ) ^ 52 * 2 ^ exponent = 2 ^ (52 + exponent) :=
        (zpow_add₀ two_ne_zero ..).symm
          _ ≤ 2 ^ log := zpow_le_zpow_right₀ one_le_two (by omega)
          _ ≤ numerator / denominator := lower
  · rw [rounded, encode, equal, Nat.shiftLeft_eq]
    rfl

/-! ## The ends of the range -/

/-- From here on, numbers are nearer to a power of two that is not finite than to the
largest finite number. -/
def overflow : ℚ := (2 - 2 ^ (-53 : ℤ)) * 2 ^ 1023

/-- Up to here, numbers are as near to zero as to any other. -/
def underflow : ℚ := 2 ^ (-1075 : ℤ)

theorem overflow_eq : overflow = (2 ^ 53 - 1 / 2) * spacing 2045 := by
  have power : (2 : ℚ) ^ 1023 = 2 ^ 52 * spacing 2045 := by
    rw [spacing, ← zpow_natCast, ← zpow_natCast, ← zpow_add₀ two_ne_zero]
    rfl
  rw [overflow, power, ← mul_assoc]
  norm_num

theorem underflow_eq : underflow = 1 / 2 * spacing 0 := by
  have power : spacing 0 = 2 ^ (1 : ℤ) * 2 ^ (-1075 : ℤ) := by
    rw [spacing, ← zpow_add₀ two_ne_zero]
    rfl
  rw [power, underflow, zpow_one, ← mul_assoc]
  norm_num

namespace Scaled

variable {number : ℚ} {exponent significand : ℕ}

theorem lt_of_exponent (scaled : Scaled number exponent significand) :
    number < 2 ^ 53 * spacing exponent :=
  (div_lt_iff₀ (spacing_pos _)).mp scaled.small

theorem le_of_exponent (scaled : Scaled number exponent significand) :
    exponent = 0 ∨ 2 ^ 52 * spacing exponent ≤ number :=
  scaled.large.imp_right (le_div_iff₀ (spacing_pos _)).mp

theorem infinityBits_le (scaled : Scaled number exponent significand)
    (large : overflow ≤ number) :
    infinityBits ≤ exponent * 2 ^ 52 + significand := by
  have exponent_ge : 2045 ≤ exponent := by
    by_contra lower
    have less := scaled.lt_of_exponent
    have le : spacing exponent ≤ spacing 2044 := spacing_le (by omega)
    have double : spacing 2045 = 2 ^ 1 * spacing 2044 := spacing_add 2044 1
    have positive := spacing_pos 2044
    rw [overflow_eq, double] at large
    linarith
  have least := scaled.le_significand.resolve_left (by omega)
  rcases Nat.lt_or_ge 2045 exponent with more | most
  · unfold infinityBits
    omega
  · obtain rfl : exponent = 2045 := by omega
    -- The greatest significand is odd, and so not chosen if the next is as near.
    have half : 2 ^ 53 - 1 / 2 ≤ number / spacing 2045 := by
      rwa [le_div_iff₀ (spacing_pos _), ← overflow_eq]
    have near := abs_le.mp scaled.near
    have reached : 2 ^ 53 - 1 ≤ significand := by
      have : (2 ^ 53 : ℚ) ≤ significand + 1 := by linarith
      have : 2 ^ 53 ≤ significand + 1 := by exact_mod_cast this
      omega
    have carries : significand ≠ 2 ^ 53 - 1 := by
      rintro rfl
      have cast : ((2 ^ 53 - 1 : ℕ) : ℚ) = 2 ^ 53 - 1 := by norm_num
      have tie : |number / spacing 2045 - (2 ^ 53 - 1 : ℕ)| = 1 / 2 := by
        rw [cast] at near ⊢
        rw [abs_of_nonneg (by linarith)]
        linarith
      have even := scaled.even tie
      omega
    unfold infinityBits
    omega

theorem lt_infinityBits (scaled : Scaled number exponent significand)
    (small : number < overflow) :
    exponent * 2 ^ 52 + significand < infinityBits := by
  have exponent_le : exponent ≤ 2045 := by
    by_contra higher
    have least := scaled.le_of_exponent.resolve_left (by omega)
    have le : spacing 2046 ≤ spacing exponent := spacing_le (by omega)
    have double : spacing 2046 = 2 ^ 1 * spacing 2045 := spacing_add 2045 1
    have positive := spacing_pos 2045
    rw [overflow_eq] at small
    linarith
  have most := scaled.significand_le
  rcases Nat.lt_or_ge exponent 2045 with less | greatest
  · unfold infinityBits
    omega
  · obtain rfl : exponent = 2045 := by omega
    have half : number / spacing 2045 < 2 ^ 53 - 1 / 2 := by
      rwa [div_lt_iff₀ (spacing_pos _), ← overflow_eq]
    have near := abs_le.mp scaled.near
    have fits : significand < 2 ^ 53 := by
      have : (significand : ℚ) < 2 ^ 53 := by linarith
      exact_mod_cast this
    unfold infinityBits
    omega

theorem eq_zero (scaled : Scaled number exponent significand)
    (tiny : number ≤ underflow) :
    exponent * 2 ^ 52 + significand = 0 := by
  have exponent_eq : exponent = 0 := by
    by_contra nonzero
    have least := scaled.le_of_exponent.resolve_left nonzero
    have le : spacing 0 ≤ spacing exponent := spacing_le (Nat.zero_le _)
    have positive := spacing_pos 0
    rw [underflow_eq] at tiny
    linarith
  subst exponent_eq
  have half : number / spacing 0 ≤ 1 / 2 := by
    rwa [div_le_iff₀ (spacing_pos _), ← underflow_eq]
  have near := abs_le.mp scaled.near
  have nonneg := scaled.nonneg
  have le_one : significand ≤ 1 := by
    have : (significand : ℚ) ≤ 1 := by linarith
    exact_mod_cast this
  have notOne : significand ≠ 1 := by
    rintro rfl
    push_cast at near
    have tie : |number / spacing 0 - (1 : ℕ)| = 1 / 2 := by
      push_cast
      rw [abs_of_neg (by linarith)]
      linarith
    have even := scaled.even tie
    omega
  omega

end Scaled

/-! ## Decimals -/

theorem scaled_zero : Scaled 0 0 0 := ⟨by simp, by simp, .inl rfl, by simp, fun _ => rfl⟩

theorem toDigits_magnitude {digits : ℕ} (positive : 0 < digits) (exponent : ℤ) :
    (10 : ℚ) ^ (exponent + (Nat.toDigits 10 digits).length - 1) ≤ digits * 10 ^ exponent ∧
      digits * 10 ^ exponent <
        (10 : ℚ) ^ (exponent + (Nat.toDigits 10 digits).length) := by
  have written : 0 < (Nat.toDigits 10 digits).length := Nat.length_toDigits_pos
  have less : digits < 10 ^ (Nat.toDigits 10 digits).length :=
    (Nat.length_toDigits_le_iff (by norm_num) written).mp le_rfl
  obtain ⟨others, equal⟩ := Nat.exists_eq_add_of_lt written
  rw [Nat.zero_add] at equal
  have le : 10 ^ others ≤ digits := by
    rcases Nat.eq_zero_or_pos others with rfl | more
    · exact positive
    · refine Nat.not_lt.mp fun less => ?_
      have short := (Nat.length_toDigits_le_iff (by norm_num) more).mpr less
      omega
  rw [equal] at less ⊢
  have unit : (0 : ℚ) < 10 ^ exponent := by positivity
  have sum : ∀ count : ℕ, (10 : ℚ) ^ (exponent + count) =
      10 ^ count * 10 ^ exponent := fun count => by
        rw [zpow_add₀ (by norm_num), zpow_natCast, mul_comm]
  have last : exponent + ((others + 1 : ℕ) : ℤ) - 1 = exponent + others := by
    push_cast
    ring
  rw [last, sum, sum]
  exact ⟨mul_le_mul_of_nonneg_right (by exact_mod_cast le) unit.le,
    mul_lt_mul_of_pos_right (by exact_mod_cast less) unit⟩

theorem bitsOfQuotient_of_le_underflow {numerator denominator : ℕ}
    (positive : 0 < numerator)
    (positive' : 0 < denominator) (tiny : (numerator : ℚ) / denominator ≤ underflow) :
    bitsOfQuotient numerator denominator = 0 := by
  obtain ⟨exponent, significand, scaled, bits⟩ := bitsOfQuotient_scaled positive positive'
  rw [bits, scaled.eq_zero tiny]
  rfl

theorem bitsOfQuotient_of_overflow_le {numerator denominator : ℕ}
    (positive : 0 < numerator)
    (positive' : 0 < denominator) (large : overflow ≤ (numerator : ℚ) / denominator) :
    bitsOfQuotient numerator denominator = infinityBits := by
  obtain ⟨exponent, significand, scaled, bits⟩ := bitsOfQuotient_scaled positive positive'
  rw [bits, Nat.min_eq_right (scaled.infinityBits_le large)]

theorem ten_zpow_le_underflow : (10 : ℚ) ^ (-331 : ℤ) ≤ underflow := by
  have powers : 2 ^ 1075 ≤ 10 ^ 331 := by decide +kernel
  rw [underflow, zpow_neg, zpow_neg]
  exact inv_anti₀ (by positivity) (by exact_mod_cast powers)

theorem overflow_le_ten_zpow : overflow ≤ 10 ^ (320 : ℤ) := by
  have powers : 2 * 2 ^ 1023 ≤ 10 ^ 320 := by decide +kernel
  have less : (2 : ℚ) - 2 ^ (-53 : ℤ) ≤ 2 := by
    linarith [zpow_pos (two_pos : (0 : ℚ) < 2) (-53)]
  calc overflow ≤ 2 * 2 ^ 1023 := mul_le_mul_of_nonneg_right less (by positivity)
    _ ≤ 10 ^ (320 : ℤ) := by exact_mod_cast powers

/-- Powers of ten that are told apart first would be rounded to the same. -/
theorem bitsOfDecimal_scaled (digits : ℕ) (exponent : ℤ) :
    ∃ counted significand, Scaled (digits * 10 ^ exponent) counted significand ∧
      bitsOfDecimal digits exponent =
        min (counted * 2 ^ 52 + significand) infinityBits := by
  rcases Nat.eq_zero_or_pos digits with rfl | positive
  · refine ⟨0, 0, by simpa using scaled_zero, by simp [bitsOfDecimal]⟩
  obtain ⟨numerator, denominator, positive', positive'', quotient, bits⟩ :
      ∃ numerator denominator : ℕ,
      0 < numerator ∧ 0 < denominator ∧
        (numerator : ℚ) / denominator = digits * 10 ^ exponent ∧
        (if 0 ≤ exponent then bitsOfQuotient (digits * Nat.pow 10 exponent.toNat) 1
          else bitsOfQuotient digits (Nat.pow 10 (-exponent).toNat)) =
            bitsOfQuotient numerator denominator := by
    split
    next nonneg =>
      obtain ⟨power, rfl⟩ := Int.eq_ofNat_of_zero_le nonneg
      refine ⟨_, 1, Nat.mul_pos positive (Nat.pow_pos (by norm_num)), one_pos, ?_, rfl⟩
      rw [Nat.cast_one, div_one, zpow_natCast]
      push_cast
      rfl
    next negative =>
      obtain ⟨power, equal⟩ := Int.eq_ofNat_of_zero_le (by omega : 0 ≤ -exponent)
      obtain rfl : exponent = -(power : ℤ) := by omega
      refine ⟨digits, _, positive, Nat.pow_pos (by norm_num), ?_, rfl⟩
      rw [zpow_neg, zpow_natCast, neg_neg, div_eq_mul_inv]
      push_cast
      rfl
  obtain ⟨counted, significand, scaled, rounded⟩ :=
    bitsOfQuotient_scaled positive' positive''
  refine ⟨counted, significand, quotient ▸ scaled, ?_⟩
  rw [← rounded]
  obtain ⟨lower, upper⟩ := toDigits_magnitude positive exponent
  unfold bitsOfDecimal
  simp only [positive.ne', false_or]
  split
  next small =>
    refine (bitsOfQuotient_of_le_underflow positive' positive'' ?_).symm
    rw [quotient]
    calc digits * (10 : ℚ) ^ exponent ≤
      10 ^ (exponent + (Nat.toDigits 10 digits).length) := upper.le
      _ ≤ 10 ^ (-331 : ℤ) := zpow_le_zpow_right₀ (by norm_num) (by omega)
      _ ≤ underflow := ten_zpow_le_underflow
  next =>
  split
  next large =>
    refine (bitsOfQuotient_of_overflow_le positive' positive'' ?_).symm
    rw [quotient]
    calc overflow ≤ 10 ^ (320 : ℤ) := overflow_le_ten_zpow
      _ ≤ 10 ^ (exponent + (Nat.toDigits 10 digits).length - 1) :=
        zpow_le_zpow_right₀ (by norm_num) (by omega)
      _ ≤ digits * 10 ^ exponent := lower
  next => exact bits

end GraphQL.Binary64
