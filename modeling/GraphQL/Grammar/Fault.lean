import GraphQL.Lexical.Fault
import GraphQL.Token.Lexeme

/-! Why tokens do not make up a document. -/

namespace GraphQL

/-- Keywords that are known and refused. -/
inductive UnsupportedKeyword where
  /-- Begins extensions of a type system. -/
  | extend
  /-- Begins operations other than queries and mutations. -/
  | subscription
  deriving DecidableEq, Repr

namespace UnsupportedKeyword

def word : UnsupportedKeyword → String
  | extend => "extend"
  | subscription => "subscription"

def reason : UnsupportedKeyword → String
  | extend => "type system extensions cannot be parsed"
  | subscription => "only `query` and `mutation` operations can be parsed"

end UnsupportedKeyword

/-- What is wrong with a token where it stands. -/
inductive GrammarFault where
  | expected (kind : TokenKind) (found : Lexeme)
  | expectedKeyword (word : String) (found : Lexeme)
  /-- Tokens of several kinds fit, but not this one. -/
  | unexpected (found : Lexeme)
  | unsupported (keyword : UnsupportedKeyword)
  | reservedName (name : String)
  | unknownDirectiveLocation (name : String)
  | variableInConstant (name : String)
  | integerOutOfRange (literal : String)
  | notFloat (literal : String)
  /-- Selection sets, lists, objects and list types within one another. -/
  | nestedTooDeep (limit : Nat)
  deriving DecidableEq, Repr

namespace GrammarFault

def message : GrammarFault → String
  | expected kind found =>
      "Expected " ++ kind.description ++ ", found " ++ found.description
  | expectedKeyword word found =>
      "Expected \"" ++ word ++ "\", found " ++ found.description
  | unexpected found => "Unexpected " ++ found.description
  | unsupported keyword =>
      "`" ++ keyword.word ++ "` is not supported: " ++ keyword.reason ++ "."
  | reservedName name => "Unexpected " ++ (Lexeme.name name).description
  | unknownDirectiveLocation name => "Unexpected " ++ (Lexeme.name name).description
  | variableInConstant name =>
      "Unexpected variable \"$" ++ name ++ "\" in constant value."
  | integerOutOfRange literal =>
      "Int cannot represent non 32-bit signed integer value: " ++ literal
  | notFloat literal => "Float cannot represent value: " ++ literal
  | nestedTooDeep limit =>
      "Document nesting exceeds the maximum depth of " ++ toString limit ++ "."

end GrammarFault

/-- Why a parse failed. Faults of the grammar lie with one of the tokens that the
grammar sees, which are numbered from the one that begins the source. -/
inductive Failure where
  | lexical (error : LexicalError)
  | grammatical (fault : GrammarFault) (ordinal : Nat)
  deriving DecidableEq, Repr

end GraphQL
