import GraphQL.Numeric.Decimal
import GraphQL.Proofs.Lexing.Reading
import Mathlib.Algebra.Order.Field.Power
import Mathlib.Data.List.Induction
import Mathlib.Data.Nat.Digits.Defs
import Mathlib.Data.Rat.Cast.Order
import Mathlib.Tactic.FieldSimp
import Mathlib.Tactic.Ring

/-! The numbers that literals stand for.

A numeral is a literal taken apart. Its value is that of its digits in base ten, and does
not depend on how a literal is read. -/

namespace GraphQL

abbrev Digits := List (Fin 10)

namespace Digits

def text (digits : Digits) : List Char :=
  digits.map fun (digit : Fin 10) => Nat.digitChar digit.val

def value (digits : Digits) : ℕ := Nat.ofDigits 10 (digits.reverse.map Fin.val)

variable {digits more : Digits}

theorem text_append : text (digits ++ more) = text digits ++ text more := List.map_append

theorem length_text : (text digits).length = digits.length := List.length_map ..

theorem text_eq_nil_iff : text digits = [] ↔ digits = [] := List.map_eq_nil_iff

theorem value_append :
    value (digits ++ more) = value digits * 10 ^ more.length + value more := by
  simp [value, Nat.ofDigits_append, Nat.mul_comm, Nat.add_comm]

theorem isDigit_of_mem_text : ∀ char ∈ text digits, char.isDigit = true := by
  intro char member
  obtain ⟨digit, _, rfl⟩ := List.mem_map.mp member
  simp [Nat.isDigit_digitChar]

theorem digitsValue_text (digits : Digits) :
    digitsValue (text digits) = value digits := by
  induction digits using List.reverseRecOn with
  | nil => rfl
  | append_singleton digits digit induction =>
      have last : (Nat.digitChar digit).toNat - '0'.toNat = digit :=
        Nat.toNat_digitChar_sub_48_of_lt_ten digit.isLt
      rw [text_append, digitsValue, List.foldl_append]
      change digitsValue (text digits) * 10 +
        ((Nat.digitChar digit).toNat - '0'.toNat) = _
      rw [induction, last, value_append]
      simp [value]

theorem exists_text {chars : List Char} (isDigit : ∀ char ∈ chars, char.isDigit = true) :
    ∃ digits, text digits = chars := by
  induction chars with
  | nil => exact ⟨[], rfl⟩
  | cons char chars induction =>
      obtain ⟨first, others⟩ := List.forall_mem_cons.mp isDigit
      obtain ⟨digits, rfl⟩ := induction others
      obtain ⟨least, greatest⟩ := Char.isDigit_iff_toNat.mp first
      have least : 48 ≤ char.toNat := least
      have greatest : char.toNat ≤ 57 := greatest
      have small : char.toNat - 48 < 10 := by omega
      have digit : Nat.digitChar (char.toNat - 48) = char := by
        refine Char.toNat_inj.mp ?_
        rw [Nat.toNat_digitChar_of_lt_ten small]
        omega
      exact ⟨⟨_, small⟩ :: digits, congrArg (· :: text digits) digit⟩

end Digits

theorem Decimal.areDigits_iff {text : List Char} :
    areDigits text = true ↔ ∃ digits : Digits, digits ≠ [] ∧
      Digits.text digits = text := by
  rw [areDigits, Bool.and_eq_true, Bool.not_eq_true', List.isEmpty_eq_false_iff,
    List.all_eq_true]
  constructor
  · rintro ⟨nonempty, isDigit⟩
    obtain ⟨digits, rfl⟩ := Digits.exists_text isDigit
    exact ⟨digits, fun empty => nonempty (Digits.text_eq_nil_iff.mpr empty), rfl⟩
  · rintro ⟨digits, nonempty, rfl⟩
    exact ⟨fun empty => nonempty (Digits.text_eq_nil_iff.mp empty),
      Digits.isDigit_of_mem_text⟩

/-! ## Signs -/

inductive NumeralSign where
  | none
  | plus
  | minus
  deriving DecidableEq, Repr

namespace NumeralSign

def text : NumeralSign → List Char
  | none => []
  | plus => ['+']
  | minus => ['-']

def apply (sign : NumeralSign) (number : ℕ) : ℤ :=
  match sign with
  | minus => -number
  | none | plus => number

theorem behindSign_text (sign : NumeralSign) {rest : List Char}
    (other : ∀ char ∈ rest.head?, char ≠ '-' ∧ char ≠ '+') :
    Decimal.behindSign (sign.text ++ rest) = rest := by
  cases sign with
  | plus | minus => rfl
  | none =>
      change Decimal.behindSign rest = rest
      unfold Decimal.behindSign
      split
      next => exact ((other '-' rfl).1 rfl).elim
      next => exact ((other '+' rfl).2 rfl).elim
      next => rfl

theorem exists_text (text : List Char) :
    ∃ sign : NumeralSign, sign.text ++ Decimal.behindSign text = text := by
  unfold Decimal.behindSign
  split
  · exact ⟨minus, rfl⟩
  · exact ⟨plus, rfl⟩
  · exact ⟨none, rfl⟩

theorem head?_digits {digits : Digits} :
    ∀ char ∈ (Digits.text digits).head?, char ≠ '-' ∧ char ≠ '+' := by
  intro char first
  have isDigit := Digits.isDigit_of_mem_text char (List.mem_of_mem_head? first)
  constructor <;>
  · rintro rfl
    cases isDigit

theorem signedValue_text (sign : NumeralSign) (digits : Digits) :
    signedValue (sign.text ++ Digits.text digits) = sign.apply (Digits.value digits) := by
  rw [← Digits.digitsValue_text]
  cases sign with
  | plus | minus => rfl
  | none =>
      change signedValue (Digits.text digits) = _
      have other : ∀ char ∈ (Digits.text digits).head?, char ≠ '-' ∧
          char ≠ '+' := head?_digits
      generalize Digits.text digits = chars at other ⊢
      unfold signedValue
      split
      next => exact ((other '-' rfl).1 rfl).elim
      next => exact ((other '+' rfl).2 rfl).elim
      next => rfl

end NumeralSign

/-! ## Integers -/

/-- The literal is written with the digits of the number in base ten. -/
def Denotes (literal : String) (number : ℤ) : Prop :=
  ∃ sign : NumeralSign, ∃ digits : Digits,
    digits ≠ [] ∧ literal.toList = sign.text ++ Digits.text digits ∧
      number = sign.apply (Digits.value digits)

section

variable {literal : String} {number : ℤ}

theorem denotes_iff : Denotes literal number ↔
    Decimal.isInteger literal.toList = true ∧ signedValue literal.toList = number := by
  constructor
  · rintro ⟨sign, digits, nonempty, written, rfl⟩
    rw [written]
    refine ⟨?_, sign.signedValue_text digits⟩
    rw [Decimal.isInteger, sign.behindSign_text NumeralSign.head?_digits]
    exact Decimal.areDigits_iff.mpr ⟨digits, nonempty, rfl⟩
  · rintro ⟨isInteger, rfl⟩
    obtain ⟨sign, written⟩ := NumeralSign.exists_text literal.toList
    obtain ⟨digits, nonempty, behind⟩ := Decimal.areDigits_iff.mp isInteger
    rw [← behind] at written
    refine ⟨sign, digits, nonempty, written.symm, ?_⟩
    rw [← written, sign.signedValue_text]

theorem isInt32_eq_true :
    isInt32 number = true ↔ -2 ^ 31 ≤ number ∧ number ≤ 2 ^ 31 - 1 := by
  simp only [isInt32, Bool.and_eq_true, decide_eq_true_eq]
  norm_num

theorem Denotes.lt_zero_iff (denotes : Denotes literal number) (nonzero : number ≠ 0) :
    literal.toList.head? = some '-' ↔ number < 0 := by
  obtain ⟨sign, digits, nonempty, written, rfl⟩ := denotes
  rw [written]
  cases sign with
  | minus =>
      change _ ↔ -(Digits.value digits : ℤ) < 0
      have nonzero : -(Digits.value digits : ℤ) ≠ 0 := nonzero
      simp only [NumeralSign.text, List.cons_append, List.head?_cons, true_iff]
      omega
  | plus =>
      change _ ↔ (Digits.value digits : ℤ) < 0
      simp [NumeralSign.text]
  | none =>
      change (Digits.text digits).head? = _ ↔ (Digits.value digits : ℤ) < 0
      exact iff_of_false (fun first =>
        (NumeralSign.head?_digits '-' first).1 rfl) (by omega)

end

/-! ## Numerals -/

structure Exponent where
  isCapital : Bool
  sign : NumeralSign
  digits : Digits
  nonempty : digits ≠ []
  deriving DecidableEq, Repr

/-- A literal taken apart. What stands on either side of a point may be
empty, but not both. -/
structure Numeral where
  sign : NumeralSign
  integer : Digits
  fraction : Option Digits
  exponent : Option Exponent
  nonempty : integer ++ fraction.getD [] ≠ []
  deriving DecidableEq, Repr

namespace Exponent

def text (exponent : Exponent) : List Char :=
  (if exponent.isCapital then 'E'
    else 'e') :: (exponent.sign.text ++ Digits.text exponent.digits)

def value (exponent : Exponent) : ℤ := exponent.sign.apply (Digits.value exponent.digits)

end Exponent

namespace Numeral

def isNegative (numeral : Numeral) : Bool := numeral.sign = .minus

def decimals (numeral : Numeral) : Digits := numeral.fraction.getD []

def fractionText (numeral : Numeral) : List Char :=
  (numeral.fraction.map ('.' :: Digits.text ·)).getD []

def exponentText (numeral : Numeral) : List Char :=
  (numeral.exponent.map Exponent.text).getD []

def text (numeral : Numeral) : List Char :=
  numeral.sign.text ++ Digits.text numeral.integer ++ numeral.fractionText ++
    numeral.exponentText

def exponentValue (numeral : Numeral) : ℤ := (numeral.exponent.map Exponent.value).getD 0

def size (numeral : Numeral) : ℚ :=
  (Digits.value numeral.integer +
    Digits.value numeral.decimals / 10 ^ numeral.decimals.length) *
    10 ^ numeral.exponentValue

def value (numeral : Numeral) : ℚ :=
  if numeral.isNegative then -numeral.size else numeral.size

/-! ## Reading numerals -/

theorem takeWhile_append_eq {test : Char → Bool} {front rest : List Char}
    (all : ∀ char ∈ front, test char = true)
    (stops : ∀ char ∈ rest.head?, test char = false) :
    (front ++ rest).takeWhile test = front ∧ (front ++ rest).dropWhile test = rest := by
  have run := takeWhile_again test front stops
  rwa [List.takeWhile_eq_self_iff.mpr all] at run

variable {numeral : Numeral}

theorem ne_of_mem_text (other : Char) {digits : Digits} {char : Char}
    (member : char ∈ Digits.text digits) (notDigit : other.isDigit = false) :
    char ≠ other := by
  rintro rfl
  rw [Digits.isDigit_of_mem_text _ member] at notDigit
  cases notDigit

theorem head?_fractionText {char : Char} (first : char ∈ numeral.fractionText.head?) :
    char = '.' := by
  unfold fractionText at first
  cases fraction : numeral.fraction with
  | none =>
      rw [fraction] at first
      cases first
  | some digits =>
      rw [fraction] at first
      cases first
      rfl

theorem head?_exponentText {char : Char} (first : char ∈ numeral.exponentText.head?) :
    char = 'e' ∨ char = 'E' := by
  unfold exponentText at first
  cases exponent : numeral.exponent with
  | none =>
      rw [exponent] at first
      cases first
  | some exponent' =>
      rw [exponent] at first
      obtain ⟨isCapital, _, _⟩ := exponent'
      cases first
      cases isCapital
      · exact .inl rfl
      · exact .inr rfl

theorem head?_append_of {property : Char → Prop} {front rest : List Char}
    (first : ∀ char ∈ front.head?, property char)
    (next : ∀ char ∈ rest.head?, property char) :
    ∀ char ∈ (front ++ rest).head?, property char := by
  cases front with
  | nil => exact next
  | cons => exact first

def unsignedText (numeral : Numeral) : List Char :=
  Digits.text numeral.integer ++ numeral.fractionText ++ numeral.exponentText

theorem text_eq (numeral : Numeral) :
    numeral.text = numeral.sign.text ++ numeral.unsignedText := by
  simp only [text, unsignedText, List.append_assoc]

theorem head?_unsignedText :
    ∀ char ∈ numeral.unsignedText.head?, char ≠ '-' ∧ char ≠ '+' := by
  refine head?_append_of (head?_append_of NumeralSign.head?_digits fun char first => ?_)
    fun char first => ?_
  · rw [head?_fractionText first]
    exact ⟨nofun, nofun⟩
  · rcases head?_exponentText first with rfl | rfl <;> exact ⟨nofun, nofun⟩

theorem behindSign_text : Decimal.behindSign numeral.text = numeral.unsignedText := by
  rw [text_eq, numeral.sign.behindSign_text head?_unsignedText]

theorem head?_text : (numeral.text.head? == some '-') = numeral.isNegative := by
  rw [text_eq, isNegative]
  cases numeral.sign with
  | plus | minus => rfl
  | none =>
      change (numeral.unsignedText.head? == some '-') = false
      cases first : numeral.unsignedText.head? with
      | none => rfl
      | some char => simpa using (head?_unsignedText char first).1

theorem unsignedText_split : numeral.unsignedText.takeWhile (!Decimal.isExponentMark ·) =
      Digits.text numeral.integer ++ numeral.fractionText ∧
    numeral.unsignedText.dropWhile (!Decimal.isExponentMark ·) =
      numeral.exponentText := by
  have digits :
      ∀ {digits}, ∀ char ∈ Digits.text digits, (!Decimal.isExponentMark char) = true :=
    fun char member => by
      simp [Decimal.isExponentMark, ne_of_mem_text 'e' member rfl,
        ne_of_mem_text 'E' member rfl]
  refine takeWhile_append_eq (List.forall_mem_append.mpr ⟨digits, ?_⟩)
    fun char first => ?_
  · unfold fractionText
    cases numeral.fraction with
    | none => exact List.forall_mem_nil _
    | some => exact List.forall_mem_cons.mpr ⟨rfl, digits⟩
  · rcases head?_exponentText first with rfl | rfl <;> rfl

theorem mantissa_split :
    (Digits.text numeral.integer ++ numeral.fractionText).takeWhile (· != '.') =
      Digits.text numeral.integer ∧
    ((Digits.text numeral.integer ++ numeral.fractionText).dropWhile (· != '.')).drop 1 =
      Digits.text numeral.decimals := by
  have stops :
      ∀ char ∈ numeral.fractionText.head?, (char != '.') = false := fun char first => by
        rw [head?_fractionText first]
        rfl
  have digits :
      ∀ char ∈ Digits.text numeral.integer, (char != '.') = true := fun char member =>
        bne_iff_ne.mpr (ne_of_mem_text '.' member rfl)
  obtain ⟨integer, rest⟩ := takeWhile_append_eq digits stops
  refine ⟨integer, ?_⟩
  rw [rest, fractionText, decimals]
  cases numeral.fraction <;> rfl

theorem filter_isDigit :
    (Digits.text numeral.integer ++ numeral.fractionText).filter Char.isDigit =
    Digits.text (numeral.integer ++ numeral.decimals) := by
  have digits : ∀ digits, (Digits.text digits).filter Char.isDigit = Digits.text digits :=
    fun digits => List.filter_eq_self.mpr Digits.isDigit_of_mem_text
  rw [List.filter_append, digits, Digits.text_append, fractionText, decimals]
  cases numeral.fraction with
  | none => rfl
  | some fraction =>
      change _ ++ ('.' :: Digits.text fraction).filter Char.isDigit = _
      rw [List.filter_cons_of_neg (by decide), digits]
      rfl

theorem signedValue_exponent :
    signedValue (numeral.exponentText.drop 1) = numeral.exponentValue := by
  unfold exponentText exponentValue
  cases numeral.exponent with
  | none => rfl
  | some exponent => exact NumeralSign.signedValue_text exponent.sign exponent.digits

theorem ofLiteral_text (numeral : Numeral) : Decimal.ofLiteral numeral.text =
    { negative := numeral.isNegative
      digits := Digits.value (numeral.integer ++ numeral.decimals)
      exponent := numeral.exponentValue - numeral.decimals.length } := by
  unfold Decimal.ofLiteral
  simp only [head?_text, behindSign_text, unsignedText_split, mantissa_split,
    filter_isDigit, signedValue_exponent, Digits.digitsValue_text, Digits.length_text]

/-- With the point moved behind the last digit, the size is the same. -/
theorem size_eq (numeral : Numeral) : numeral.size =
    Digits.value (numeral.integer ++ numeral.decimals) *
      10 ^ (numeral.exponentValue - numeral.decimals.length) := by
  rw [size, Digits.value_append, zpow_sub₀ (by norm_num), zpow_natCast]
  push_cast
  field_simp

/-! ## Literals as numerals -/

theorem isLiteral_text (numeral : Numeral) : Decimal.isLiteral numeral.text = true := by
  have digits :
      Decimal.areDigits (Digits.text numeral.integer ++ Digits.text numeral.decimals) =
        true :=
    Decimal.areDigits_iff.mpr ⟨_, numeral.nonempty, Digits.text_append⟩
  unfold Decimal.isLiteral
  simp only [behindSign_text, unsignedText_split, mantissa_split, digits, Bool.true_and]
  unfold exponentText
  cases numeral.exponent with
  | none => rfl
  | some exponent =>
      refine Bool.or_eq_true_iff.mpr (.inr ?_)
      change Decimal.areDigits (Decimal.behindSign (exponent.sign.text ++ _)) = true
      rw [exponent.sign.behindSign_text NumeralSign.head?_digits]
      exact Decimal.areDigits_iff.mpr ⟨_, exponent.nonempty, rfl⟩

theorem exists_mantissa {mantissa : List Char}
    (areDigits : Decimal.areDigits (mantissa.takeWhile (· != '.') ++
      (mantissa.dropWhile (· != '.')).drop 1) = true) :
    ∃ integer : Digits, ∃ fraction : Option Digits, integer ++ fraction.getD [] ≠ [] ∧
      Digits.text integer ++ (fraction.map ('.' :: Digits.text ·)).getD [] =
        mantissa := by
  have whole := mantissa.takeWhile_append_dropWhile (p := (· != '.'))
  have stops : ∀ char ∈ (mantissa.dropWhile (· != '.')).head?, (char != '.') = false :=
    dropWhile_stops _ _
  obtain ⟨digits, nonempty, split⟩ := Decimal.areDigits_iff.mp areDigits
  obtain ⟨integer, fraction, rfl, front, behind⟩ := List.map_eq_append_iff.mp split
  cases rest : mantissa.dropWhile (· != '.') with
  | nil =>
      rw [rest] at whole behind
      obtain rfl : fraction = [] := List.map_eq_nil_iff.mp behind
      refine ⟨integer, none, nonempty, ?_⟩
      rw [← whole, ← front]
      rfl
  | cons point others =>
      rw [rest] at whole behind stops
      obtain rfl : point = '.' := by simpa using stops point rfl
      refine ⟨integer, some fraction, nonempty, ?_⟩
      rw [← whole, ← front]
      exact congrArg (fun text => Digits.text integer ++ '.' :: text) behind

theorem exists_exponent {text : List Char}
    (begins : ∀ char ∈ text.head?, Decimal.isExponentMark char = true)
    (areDigits : (text.isEmpty || Decimal.areDigits (Decimal.behindSign (text.drop 1))) =
      true) :
    ∃ exponent : Option Exponent, (exponent.map Exponent.text).getD [] = text := by
  cases text with
  | nil => exact ⟨none, rfl⟩
  | cons mark others =>
      obtain ⟨sign, written⟩ := NumeralSign.exists_text others
      obtain ⟨digits, nonempty, behind⟩ := Decimal.areDigits_iff.mp areDigits
      obtain ⟨isCapital, rfl⟩ :
          ∃ isCapital : Bool, (if isCapital then 'E' else 'e') = mark := by
        have isMark := begins mark rfl
        simp only [Decimal.isExponentMark, Bool.or_eq_true, beq_iff_eq] at isMark
        rcases isMark with rfl | rfl
        · exact ⟨false, rfl⟩
        · exact ⟨true, rfl⟩
      refine ⟨some ⟨isCapital, sign, digits, nonempty⟩, ?_⟩
      rw [← written]
      exact congrArg (fun text =>
        (if isCapital then 'E' else 'e') :: (sign.text ++ text)) behind

/-- Just the texts of numerals spell numbers. -/
theorem isLiteral_iff {literal : List Char} :
    Decimal.isLiteral literal = true ↔ ∃ numeral : Numeral, numeral.text = literal := by
  constructor
  · intro isLiteral
    rw [Decimal.isLiteral, Bool.and_eq_true] at isLiteral
    obtain ⟨sign, written⟩ := NumeralSign.exists_text literal
    obtain ⟨integer, fraction, nonempty, mantissa⟩ := exists_mantissa isLiteral.1
    have begins : ∀ char ∈ ((Decimal.behindSign literal).dropWhile
        (!Decimal.isExponentMark ·)).head?, Decimal.isExponentMark char =
          true := fun char first => by
      simpa using dropWhile_stops _ _ char first
    obtain ⟨exponent, behind⟩ := exists_exponent begins isLiteral.2
    refine ⟨⟨sign, integer, fraction, exponent, nonempty⟩, ?_⟩
    rw [text_eq, unsignedText, fractionText, exponentText, mantissa, behind,
      List.takeWhile_append_dropWhile, written]
  · rintro ⟨numeral, rfl⟩
    exact numeral.isLiteral_text

end Numeral

end GraphQL
