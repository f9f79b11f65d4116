import GraphQL.Token.Kind

/-! What a token says, apart from where it stands. -/

namespace GraphQL

/-- A token without its place: its kind, and what its text stands for. Names and
numbers keep their text, strings their decoded value, and a comment what follows
the number sign. -/
inductive Lexeme where
  | startOfFile
  | endOfFile
  | punctuator (mark : Punctuator)
  | name (text : String)
  | integer (text : String)
  | float (text : String)
  | string (value : String)
  | blockString (value : String)
  | comment (text : String)
  deriving DecidableEq, Repr, Inhabited

namespace Lexeme

def kind : Lexeme → TokenKind
  | startOfFile => .startOfFile
  | endOfFile => .endOfFile
  | punctuator mark => .punctuator mark
  | name _ => .name
  | integer _ => .integer
  | float _ => .float
  | string _ => .string
  | blockString _ => .blockString
  | comment _ => .comment

/-- What the text of the token stands for, for the kinds written in many ways. -/
def value : Lexeme → Option String
  | startOfFile | endOfFile | punctuator _ => none
  | name text | integer text | float text | comment text => some text
  | string value | blockString value => some value

def description (lexeme : Lexeme) : String :=
  match lexeme.value with
  | some value => lexeme.kind.description ++ " \"" ++ value ++ "\""
  | none => lexeme.kind.description

example : (Lexeme.name "hero").description = "Name \"hero\"" := by decide

/-- Whether this is the given name. Keywords are names in a certain place. -/
def isKeyword (lexeme : Lexeme) (word : String) : Bool :=
  lexeme == name word

def isComment : Lexeme → Bool
  | comment _ => true
  | _ => false

/-- The grammar sees every token except the comments. -/
def isSignificant (lexeme : Lexeme) : Bool :=
  !lexeme.isComment

def isEndOfFile : Lexeme → Bool
  | endOfFile => true
  | _ => false

end Lexeme

end GraphQL
