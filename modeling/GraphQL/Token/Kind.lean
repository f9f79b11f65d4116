/-! The kinds of token that the language has. -/

namespace GraphQL

/-- The marks that stand for themselves. -/
inductive Punctuator where
  | ampersand
  | atSign
  | bang
  | colon
  | dollar
  | equals
  | leftBrace
  | leftBracket
  | leftParen
  | pipe
  | rightBrace
  | rightBracket
  | rightParen
  | spread
  deriving DecidableEq, Repr

namespace Punctuator

def text : Punctuator → String
  | ampersand => "&"
  | atSign => "@"
  | bang => "!"
  | colon => ":"
  | dollar => "$"
  | equals => "="
  | leftBrace => "\x7b"
  | leftBracket => "["
  | leftParen => "("
  | pipe => "|"
  | rightBrace => "\x7d"
  | rightBracket => "]"
  | rightParen => ")"
  | spread => "..."

/-- The mark that a single character makes up. Only `spread` takes more than one. -/
def ofChar? : Char → Option Punctuator
  | '&' => some ampersand
  | '@' => some atSign
  | '!' => some bang
  | ':' => some colon
  | '$' => some dollar
  | '=' => some equals
  | '\x7b' => some leftBrace
  | '[' => some leftBracket
  | '(' => some leftParen
  | '|' => some pipe
  | '\x7d' => some rightBrace
  | ']' => some rightBracket
  | ')' => some rightParen
  | _ => none

end Punctuator

/-- The kinds of token. A source begins with `startOfFile` and ends with
`endOfFile`, neither of which covers any text. -/
inductive TokenKind where
  | startOfFile
  | endOfFile
  | punctuator (mark : Punctuator)
  | name
  | integer
  | float
  | string
  | blockString
  | comment
  deriving DecidableEq, Repr

namespace TokenKind

/-- How the kind is written if all its tokens are written alike. -/
def punctuatorText? : TokenKind → Option String
  | punctuator mark => some mark.text
  | _ => none

def description : TokenKind → String
  | startOfFile => "<SOF>"
  | endOfFile => "<EOF>"
  | punctuator mark => "\"" ++ mark.text ++ "\""
  | name => "Name"
  | integer => "Int"
  | float => "Float"
  | string => "String"
  | blockString => "BlockString"
  | comment => "Comment"

end TokenKind

end GraphQL
