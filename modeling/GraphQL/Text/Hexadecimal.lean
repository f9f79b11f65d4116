/-! Hexadecimal digits, both read and written. -/

namespace GraphQL.Text

def hexValue? (char : Char) : Option Nat :=
  if '0' ≤ char ∧ char ≤ '9' then some (char.toNat - '0'.toNat)
  else if 'a' ≤ char ∧ char ≤ 'f' then some (char.toNat - 'a'.toNat + 10)
  else if 'A' ≤ char ∧ char ≤ 'F' then some (char.toNat - 'A'.toNat + 10)
  else none

def hexQuad? : List Char → Option Nat
  | first :: second :: third :: fourth :: _ => do
      let first ← hexValue? first
      let second ← hexValue? second
      let third ← hexValue? third
      let fourth ← hexValue? fourth
      return ((first * 16 + second) * 16 + third) * 16 + fourth
  | _ => none

example : hexQuad? "00e9!".toList = some 0xE9 := by decide

/-- The lowest `width` hexadecimal digits of a number, lower case. -/
def hexDigits : (width : Nat) → (number : Nat) → List Char
  | 0, _ => []
  | width + 1, number => hexDigits width (number / 16) ++ [Nat.digitChar (number % 16)]

/-- Pads on the left to a width in characters. A longer text is kept whole. -/
def padLeft (width : Nat) (padding : Char) (text : String) : String :=
  String.ofList (List.replicate (width - text.length) padding) ++ text

def padRight (width : Nat) (padding : Char) (text : String) : String :=
  text ++ String.ofList (List.replicate (width - text.length) padding)

end GraphQL.Text
