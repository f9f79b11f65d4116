import GraphQL.Text.Location
import GraphQL.Token.Lexeme

/-! Tokens in their place. -/

namespace GraphQL

/-- A token of a source. -/
structure Token where
  lexeme : Lexeme
  start : Position
  stop : Nat
  /-- How many tokens come before it. -/
  index : Nat
  /-- How many of them the grammar sees, which leaves out the comments. -/
  ordinal : Nat
  deriving DecidableEq, Repr

namespace Token

def startOfFile : Token := ⟨.startOfFile, .origin, 0, 0, 0⟩

instance : Inhabited Token := ⟨startOfFile⟩

def kind (token : Token) : TokenKind := token.lexeme.kind

def value (token : Token) : Option String := token.lexeme.value

def line (token : Token) : Nat := token.start.location.line

def column (token : Token) : Nat := token.start.location.column

def span (token : Token) : Span := ⟨token.start.offset, token.stop⟩

def description (token : Token) : String := token.lexeme.description

def isSignificant (token : Token) : Bool := token.lexeme.isSignificant

def isEndOfFile (token : Token) : Bool := token.lexeme.isEndOfFile

end Token

end GraphQL
