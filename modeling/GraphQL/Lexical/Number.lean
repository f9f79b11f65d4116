import GraphQL.Lexical.Reading

/-! Numbers: an optional minus, an integer part without leading zeros, then an
optional fraction and an optional exponent.

A number must not be followed by a point, a letter or an underscore, so that
`1.2.3` and `0x1F` are malformed numbers and not several tokens. -/

namespace GraphQL

/-- Letters and underscore begin a name. -/
def isNameStart (char : Char) : Bool :=
  char == '_' || char.isAlpha

/-- Letters, digits and underscore continue a name. -/
def isNameContinue (char : Char) : Bool :=
  char == '_' || char.isAlphanum

namespace Number

/-- A text cut in two: the part of the number read so far and what follows. -/
structure Cut where
  text : List Char
  rest : List Char
  deriving DecidableEq, Repr

def Cut.push (cut : Cut) (char : Char) (rest : List Char) : Cut :=
  ⟨cut.text ++ [char], rest⟩

def sign (cut : Cut) : Cut :=
  match cut.rest with
  | '-' :: rest => cut.push '-' rest
  | _ => cut

def digits (cut : Cut) : Except Misread Cut :=
  if cut.rest.head?.any Char.isDigit then
    .ok ⟨cut.text ++ cut.rest.takeWhile Char.isDigit, cut.rest.dropWhile Char.isDigit⟩
  else .error ⟨.digitExpected cut.rest.head?, cut.text⟩

/-- Takes the integer part: a zero alone, or digits that begin with another. -/
def integerPart (cut : Cut) : Except Misread Cut :=
  match cut.rest with
  | '0' :: rest =>
      match rest.head? with
      | some next =>
          if next.isDigit then .error ⟨.digitAfterZero next, cut.text ++ ['0']⟩
          else .ok (cut.push '0' rest)
      | none => .ok (cut.push '0' rest)
  | _ => digits cut

def fractionPart (cut : Cut) : Except Misread Cut :=
  match cut.rest with
  | '.' :: rest => digits (cut.push '.' rest)
  | _ => .ok cut

def exponentSign (cut : Cut) : Cut :=
  match cut.rest with
  | '+' :: rest => cut.push '+' rest
  | '-' :: rest => cut.push '-' rest
  | _ => cut

def exponentPart (cut : Cut) : Except Misread Cut :=
  match cut.rest with
  | 'e' :: rest => digits (exponentSign (cut.push 'e' rest))
  | 'E' :: rest => digits (exponentSign (cut.push 'E' rest))
  | _ => .ok cut

/-- Refuses a number that runs on into a point or a name. -/
def ended (cut : Cut) : Except Misread Cut :=
  match cut.rest.head? with
  | some next =>
      if next == '.' || isNameStart next
        then .error ⟨.digitExpected (some next), cut.text⟩
      else .ok cut
  | none => .ok cut

end Number

open Number in
/-- Reads a number. It is an integer if the integer part is all of it. -/
def readNumber (text : List Char) : Except Misread Reading := do
  let integer ← integerPart (sign ⟨[], text⟩)
  let whole ← ended (← exponentPart (← fractionPart integer))
  let spelling := String.ofList whole.text
  let lexeme := if whole.text = integer.text then .integer spelling else .float spelling
  return ⟨lexeme, whole.text, whole.rest⟩

example : readNumber "-12]".toList = .ok ⟨.integer "-12", ['-', '1', '2'], [']']⟩ := by
  rfl

end GraphQL
