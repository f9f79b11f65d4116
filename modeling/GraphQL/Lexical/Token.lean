import GraphQL.Lexical.BlockString
import GraphQL.Lexical.Number

/-! Reading the token at the front of a text, and the text between tokens. -/

namespace GraphQL

open Text

/-- Characters that may stand between tokens and mean nothing: the byte order
mark, blanks, line ends and commas. -/
def isIgnored (char : Char) : Bool :=
  char == '\ufeff' || char == '\t' || char == ' ' || char == ',' || isLineEnd char

/-- A comment runs to the end of its line. -/
def readComment (text : List Char) : Reading :=
  let words := text.takeWhile (!isLineEnd ·)
  ⟨.comment (String.ofList words), '#' :: words, text.dropWhile (!isLineEnd ·)⟩

/-- A name takes all the letters, digits and underscores there are. -/
def readName (text : List Char) : Reading :=
  let name := text.takeWhile isNameContinue
  ⟨.name (String.ofList name), name, text.dropWhile isNameContinue⟩

def faultOfChar (char : Char) : LexicalFault :=
  if char = '\'' then .singleQuote
  else if isForbiddenControl char then .invalidCharacter char
  else .unexpectedCharacter char

/-- Reads the token that a text begins with. The end of the text is a token too. -/
def readToken : List Char → Except Misread Reading
  | [] => .ok ⟨.endOfFile, [], []⟩
  | '.' :: '.' :: '.' :: rest => .ok ⟨.punctuator .spread, ['.', '.', '.'], rest⟩
  | '"' :: '"' :: '"' :: rest => readBlockString rest
  | '"' :: rest => readString rest
  | '#' :: rest => .ok (readComment rest)
  | char :: rest =>
      match Punctuator.ofChar? char with
      | some mark => .ok ⟨.punctuator mark, [char], rest⟩
      | none =>
          if char == '-' || char.isDigit then readNumber (char :: rest)
          else if isNameStart char then .ok (readName (char :: rest))
          else .error ⟨faultOfChar char, []⟩

end GraphQL
