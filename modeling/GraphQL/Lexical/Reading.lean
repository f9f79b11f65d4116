import GraphQL.Lexical.Fault
import GraphQL.Text.Line
import GraphQL.Token.Lexeme

/-! The outcome of reading one token off the front of a text.

Reading knows nothing of positions. It splits the text into the characters that
the token covers and those that follow, or says after how many characters it had
to stop; where that is in the source follows from the characters alone. -/

namespace GraphQL

/-- A token read off the front of a text. -/
structure Reading where
  lexeme : Lexeme
  text : List Char
  rest : List Char
  deriving DecidableEq, Repr

/-- No token could be read. -/
structure Misread where
  fault : LexicalFault
  /-- The characters in front of the one the fault is reported at. -/
  text : List Char
  deriving DecidableEq, Repr

namespace Misread

/-- The same fault, seen from `text` further left. -/
def after (text : List Char) (misread : Misread) : Misread :=
  { misread with text := text ++ misread.text }

end Misread

end GraphQL
