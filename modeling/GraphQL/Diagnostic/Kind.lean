import GraphQL.Grammar.Fault

/-! Kinds of diagnostic. -/

namespace GraphQL

/-- What a diagnostic is about, for programs to act on. -/
inductive DiagnosticKind where
  | lexical
  /-- A token that does not fit, and the only one that would if there is just one. -/
  | unexpectedToken (expected : Option String) (found : String)
  | unsupportedKeyword (keyword : String)
  | reservedName (name : String)
  | unknownDirectiveLocation (name : String)
  | variableInConstant (name : String)
  | invalidValue
  | nestedTooDeep (limit : Nat)
  /-- Anything that is found out after parsing. -/
  | custom
  deriving DecidableEq, Repr

namespace DiagnosticKind

def isLexical : DiagnosticKind → Bool
  | lexical => true
  | _ => false

/-- Whether the fault lies in the order of the tokens. -/
def isSyntactic : DiagnosticKind → Bool
  | lexical | custom => false
  | _ => true

def text : DiagnosticKind → String
  | lexical => "lexical error"
  | unexpectedToken _ found => "unexpected token: " ++ found
  | unsupportedKeyword keyword => "unsupported keyword `" ++ keyword ++ "`"
  | reservedName name => "reserved name `" ++ name ++ "`"
  | unknownDirectiveLocation name => "unknown directive location `" ++ name ++ "`"
  | variableInConstant name => "variable `$" ++ name ++ "` in constant value"
  | invalidValue => "invalid value"
  | nestedTooDeep limit => "nesting deeper than " ++ toString limit
  | custom => "error"

end DiagnosticKind

namespace GrammarFault

def kind : GrammarFault → DiagnosticKind
  | expected kind found => .unexpectedToken (some kind.description) found.description
  | expectedKeyword word found =>
      .unexpectedToken (some ("\"" ++ word ++ "\"")) found.description
  | unexpected found => .unexpectedToken none found.description
  | unsupported keyword => .unsupportedKeyword keyword.word
  | reservedName name => .reservedName name
  | unknownDirectiveLocation name => .unknownDirectiveLocation name
  | variableInConstant name => .variableInConstant name
  | integerOutOfRange _ | notFloat _ => .invalidValue
  | nestedTooDeep limit => .nestedTooDeep limit

/-- What lies behind a fault, if it is not the order of the tokens. -/
def cause : GrammarFault → Option String
  | integerOutOfRange literal =>
      some (if literal.toList.head? = some '-'
        then "number too small to fit in target type"
        else "number too large to fit in target type")
  | notFloat literal =>
      some (if literal = "" then "cannot parse float from empty string"
        else "invalid float literal")
  | _ => none

end GrammarFault

end GraphQL
