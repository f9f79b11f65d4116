import GraphQL.Lexical.Reading

/-! Strings between double quotes, on one line, with escapes. -/

namespace GraphQL

open Text

/-- What a part of a string means, and how it is written. -/
structure StringContent where
  value : List Char
  text : List Char
  rest : List Char
  deriving DecidableEq, Repr

/-- Puts characters that are written `covered` and mean `meant` in front of what
was read after them. -/
def StringContent.precede (covered meant : List Char) :
    Except Misread StringContent → Except Misread StringContent
  | .ok content => .ok ⟨meant ++ content.value, covered ++ content.text, content.rest⟩
  | .error misread => .error (misread.after covered)

/-! ## Escapes -/

def simpleEscape? : Char → Option Char
  | '"' => some '"'
  | '\\' => some '\\'
  | '/' => some '/'
  | 'b' => some '\x08'
  | 'f' => some '\x0c'
  | 'n' => some '\n'
  | 'r' => some '\r'
  | 't' => some '\t'
  | _ => none

def isLeadingSurrogate (code : Nat) : Bool :=
  0xD800 ≤ code && code ≤ 0xDBFF

def isTrailingSurrogate (code : Nat) : Bool :=
  0xDC00 ≤ code && code ≤ 0xDFFF

/-- The code point above U+FFFF that a surrogate pair encodes. -/
def combineSurrogates (leading trailing : Nat) : Nat :=
  0x10000 + (leading - 0xD800) * 0x400 + (trailing - 0xDC00)

/-- Reads what follows the letter of a Unicode escape: four hexadecimal digits
and, if they are a leading surrogate, a second escape with the trailing one. Gives
the character and the number of characters read. -/
def readUnicode? (text : List Char) : Option (Char × Nat) := do
  let code ← hexQuad? text
  if isLeadingSurrogate code then
    match text.drop 4 with
    | '\\' :: 'u' :: second =>
        let trailing ← hexQuad? second
        guard (isTrailingSurrogate trailing)
        return (Char.ofNat (combineSurrogates code trailing), 10)
    | _ => none
  else
    guard (!isTrailingSurrogate code)
    return (Char.ofNat code, 4)

/-- How a message quotes a Unicode escape that cannot be read: the six bytes that
it should take, or just its beginning if they end inside a character. -/
def quoteUnicodeEscape (text : List Char) : String :=
  let (sequence, aligned) := takeBytes 6 text
  if aligned then String.ofList sequence else "\\u"

/-- Reads an escape, given what follows its backslash: the character it stands
for, and how many characters follow the backslash. -/
def readEscape (text : List Char) : Except Misread (Char × Nat) :=
  match text with
  | [] => .error ⟨.unterminatedString, ['\\']⟩
  | letter :: rest =>
      match simpleEscape? letter with
      | some char => .ok (char, 1)
      | none =>
          if letter = 'u' then
            match readUnicode? rest with
            | some (char, length) => .ok (char, length + 1)
            | none =>
                .error ⟨.invalidUnicodeEscape (quoteUnicodeEscape ('\\' :: text)), []⟩
          else .error ⟨.invalidEscape letter, []⟩

/-! ## Strings -/

/-- Reads on to the closing quote. The first `escaped` characters belong to an
escape whose meaning is known already. -/
def readQuoted (escaped : Nat) : List Char → Except Misread StringContent
  | [] => .error ⟨.unterminatedString, []⟩
  | char :: rest =>
      match escaped with
      | escaped + 1 => StringContent.precede [char] [] (readQuoted escaped rest)
      | 0 =>
          if char = '"' then .ok ⟨[], ['"'], rest⟩
          else if isLineEnd char then .error ⟨.unterminatedString, []⟩
          else if char = '\\' then
            match readEscape rest with
            | .ok (meant, length) =>
                StringContent.precede [char] [meant] (readQuoted length rest)
            | .error misread => .error misread
          else if isForbiddenControl char then .error ⟨.invalidStringCharacter char, []⟩
          else StringContent.precede [char] [char] (readQuoted 0 rest)

def readString (text : List Char) : Except Misread Reading :=
  match readQuoted 0 text with
  | .ok content =>
      .ok ⟨.string (String.ofList content.value), '"' :: content.text, content.rest⟩
  | .error misread => .error (misread.after ['"'])

example : readString "a\\u00e9\" b".toList =
    .ok ⟨.string "aé", "\"a\\u00e9\"".toList, [' ', 'b']⟩ := by rfl

end GraphQL
