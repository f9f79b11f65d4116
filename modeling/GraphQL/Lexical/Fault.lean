import GraphQL.Text.Hexadecimal

/-! Why a text cannot be read as tokens. -/

namespace GraphQL

open Text

/-- Control characters other than tab, LF and CR may stand nowhere in a source. -/
def isForbiddenControl (char : Char) : Bool :=
  char.toNat < 0x20 && char != '\t' && char != '\n' && char != '\r'

/-- How messages show a character: quoted if it is printable ASCII, else by its
code point in at least four upper-case hexadecimal digits. -/
def describeChar (char : Char) : String :=
  if char = '"' then "'\"'"
  else if ' ' ≤ char ∧ char ≤ '~' then "\"" ++ char.toString ++ "\""
  else
    "U+" ++ padLeft 4 '0' (String.ofList ((Nat.toDigits 16 char.toNat).map Char.toUpper))

example : describeChar '\u00e9' = "U+00E9" := by decide +kernel

/-- What is wrong with a text that cannot be read as a token. -/
inductive LexicalFault where
  /-- A single quote where a token should begin; strings take double quotes. -/
  | singleQuote
  | invalidCharacter (found : Char)
  | unexpectedCharacter (found : Char)
  | digitAfterZero (found : Char)
  /-- A number broken off before a digit, or run into a name or a point. -/
  | digitExpected (found : Option Char)
  | unterminatedString
  | invalidStringCharacter (found : Char)
  | invalidEscape (found : Char)
  | invalidUnicodeEscape (sequence : String)
  deriving DecidableEq, Repr

namespace LexicalFault

def message : LexicalFault → String
  | singleQuote =>
      "Unexpected single quote character ('), did you mean to use a double quote (\")?"
  | invalidCharacter found => "Invalid character: " ++ describeChar found ++ "."
  | unexpectedCharacter found => "Unexpected character: " ++ describeChar found ++ "."
  | digitAfterZero found =>
      "Invalid number, unexpected digit after 0: " ++ describeChar found ++ "."
  | digitExpected found =>
      "Invalid number, expected digit but got: " ++
        (found.map describeChar).getD "<EOF>" ++ "."
  | unterminatedString => "Unterminated string."
  | invalidStringCharacter found =>
      "Invalid character within String: " ++ describeChar found ++ "."
  | invalidEscape found =>
      "Invalid character escape sequence: \"\\" ++ found.toString ++ "\"."
  | invalidUnicodeEscape sequence =>
      "Invalid Unicode escape sequence: \"" ++ sequence ++ "\"."

end LexicalFault

/-- A lexical fault and the byte offset it is reported at. -/
structure LexicalError where
  fault : LexicalFault
  offset : Nat
  deriving DecidableEq, Repr

end GraphQL
