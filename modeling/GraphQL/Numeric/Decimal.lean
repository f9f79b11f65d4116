/-! The numbers that decimal literals denote, exactly. -/

namespace GraphQL

def digitsValue (digits : List Char) : Nat :=
  digits.foldl (fun value digit => value * 10 + (digit.toNat - '0'.toNat)) 0

def signedValue : List Char → Int
  | '-' :: digits => -(digitsValue digits)
  | '+' :: digits => digitsValue digits
  | digits => digitsValue digits

/-- Integers of 32 bits with a sign are the only ones the language can represent. -/
def isInt32 (number : Int) : Bool :=
  -2147483648 ≤ number && number ≤ 2147483647

/-- The number `± digits · 10 ^ exponent`. Zero has a sign here. -/
structure Decimal where
  negative : Bool
  digits : Nat
  exponent : Int
  deriving DecidableEq, Repr

namespace Decimal

def isExponentMark (char : Char) : Bool := char == 'e' || char == 'E'

def behindSign : List Char → List Char
  | '-' :: rest | '+' :: rest => rest
  | rest => rest

/-- Digits, of which there is one at least. -/
def areDigits (text : List Char) : Bool := !text.isEmpty && text.all Char.isDigit

def isInteger (literal : List Char) : Bool := areDigits (behindSign literal)

/-- Whether a text spells a number in base ten: digits with at most one point among them,
and behind them nothing, or an exponent with digits of its own. Both may have a sign. -/
def isLiteral (literal : List Char) : Bool :=
  let unsigned := behindSign literal
  let mantissa := unsigned.takeWhile (!isExponentMark ·)
  let integer := mantissa.takeWhile (· != '.')
  let fraction := (mantissa.dropWhile (· != '.')).drop 1
  let exponent := unsigned.dropWhile (!isExponentMark ·)
  areDigits (integer ++ fraction) && (exponent.isEmpty || areDigits
    (behindSign (exponent.drop 1)))

example : isLiteral "-1.5E+3".toList = true ∧ isLiteral "-1.5E+".toList = false := by
  decide

def ofLiteral (literal : List Char) : Decimal :=
  let unsigned := behindSign literal
  let mantissa := unsigned.takeWhile (!isExponentMark ·)
  let fraction := (mantissa.dropWhile (· != '.')).drop 1
  let exponent := signedValue ((unsigned.dropWhile (!isExponentMark ·)).drop 1)
  { negative := literal.head? == some '-'
    digits := digitsValue (mantissa.filter Char.isDigit)
    exponent := exponent - fraction.length }

example : ofLiteral "-12.50e3".toList = ⟨true, 1250, 1⟩ := by decide

end Decimal

end GraphQL
