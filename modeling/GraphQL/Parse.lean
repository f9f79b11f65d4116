import GraphQL.Diagnostic.Basic
import GraphQL.ParseOptions
import GraphQL.Parser

/-! Parsing sources.

The grammar numbers the tokens that a node was read from. Here the numbers become
the spans that those tokens have in the source, or nothing. -/

namespace GraphQL

namespace ParseOptions

/-- What a tree says about where a node was read. -/
abbrev Note := Option Span

/-- The span of a node, given the tokens that the grammar saw. -/
def note (options : ParseOptions) (tokens : Array Token) (extent : Extent) : Note :=
  if options.noLocation then none
  else do
    let first ← tokens[extent.first]?
    let last ← tokens[extent.last]?
    return ⟨first.start.offset, last.stop⟩

end ParseOptions

open ParseOptions (Note)

/-- The diagnostic on a fault with a token. A name that is no place for directives
has been read as a node by the time it is judged, so it is reported as one if
nodes have locations. -/
def GrammarFault.diagnostic (fault : GrammarFault) (source : Source)
    (options : ParseOptions) (token : Token) : Diagnostic :=
  let diagnostic : Diagnostic :=
    { Diagnostic.atPosition fault.message fault.kind source token.start.offset with
      cause := fault.cause }
  match fault with
  | .unknownDirectiveLocation _ =>
      if options.noLocation then diagnostic
      else { diagnostic with positions := [], nodeSpans := [token.span] }
  | _ => diagnostic

def Failure.diagnostic (source : Source) (options : ParseOptions) (tokens : Array Token) :
    Failure → Diagnostic
  | .lexical error => .ofLexicalError source error
  | .grammatical fault ordinal =>
      fault.diagnostic source options (tokens[ordinal]?.getD .startOfFile)

/-- Reads by a rule from where a lexer stands, and finds the places of what was
read or of what was wrong. -/
def readBy {Tree : Type → Type} (rule : Rule (Tree Extent))
    (map : (Extent → Note) → Tree Extent → Tree Note) (options : ParseOptions)
    (lexer : Lexer) :
    Except Diagnostic (Tree Note) × Lexer :=
  let (outcome, lexer) := Parser.ofRule rule options.maxNestingDepth lexer
  let tokens := lexer.significantTokens.toArray
  (match outcome with
    | .ok tree => .ok (map (options.note tokens) tree)
    | .error failure => .error (failure.diagnostic lexer.source options tokens), lexer)

/-- Reads a document from where a lexer stands. A lexer that has left the
beginning of its source can give no other. -/
def readDocument (options : ParseOptions) (lexer : Lexer) :
    Except Diagnostic (Document Note) × Lexer :=
  readBy Grammar.document Document.map options lexer

/-- Parses a source as a document. -/
def parse (source : Source) (options : ParseOptions) :
    Except Diagnostic (Document Note) :=
  (readDocument options (.start source)).1

/-- The document with the source named wherever it has a span. Documents of
different sources are told apart by that. -/
def Document.placedIn (source : Source) (document : Document Note) :
    Document (Option (Source × Span)) :=
  document.map (·.map fun span => (source, span))

/-- Parses a source as a single value, such as `[1, $next]`. -/
def parseValue (source : Source) (options : ParseOptions) :
    Except Diagnostic (Value Note) :=
  (readBy Grammar.valueAlone Value.map options (.start source)).1

def parseType (source : Source) (options : ParseOptions) :
    Except Diagnostic (TypeReference Note) :=
  (readBy Grammar.typeAlone TypeReference.map options (.start source)).1

/-- The tokens of a source, or what is wrong with it. -/
def tokensOf (source : Source) : Except Diagnostic (List Token) :=
  (tokenize source).mapError (.ofLexicalError source)

end GraphQL
