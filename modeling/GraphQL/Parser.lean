import GraphQL.Grammar.Document
import GraphQL.Lexer

/-! Reading a source by the rules of the grammar.

A parser moves a lexer along and asks it for no token before it needs it, so of two
faults in a source the one that it comes to first is reported. -/

namespace GraphQL

/-- A way to read something from where a lexer stands. The lexer stays where a
failure was met. -/
abbrev Parser (α : Type) := Lexer → Except Failure α × Lexer

namespace Parser

variable {α β : Type}

def pure (value : α) : Parser α :=
  fun lexer => (.ok value, lexer)

def bind (first : Parser α) (second : α → Parser β) : Parser β :=
  fun lexer =>
    match first lexer with
    | (.ok value, lexer) => second value lexer
    | (.error failure, lexer) => (.error failure, lexer)

def ask (question : Lexer → Except LexicalError Token × Lexer) : Parser Token :=
  fun lexer =>
    let (answer, lexer) := question lexer
    (answer.mapError .lexical, lexer)

/-- Looks at a token. Only looking ahead can make the lexer read another. -/
def look : Vantage → Parser Token
  | .last => fun lexer => (.ok lexer.last, lexer)
  | .current => fun lexer => (.ok lexer.current, lexer)
  | .ahead => ask Lexer.lookahead

def refuse (blamed : Vantage) (fault : GrammarFault) : Parser α :=
  bind (look blamed) fun token lexer => (.error (.grammatical fault token.ordinal), lexer)

def located (parser : Parser (Extent → α)) : Parser α :=
  fun lexer => bind parser (fun build after =>
    (.ok (build ⟨lexer.current.ordinal, after.last.ordinal⟩), after)) lexer

def repeatWhile (promises : Lexeme → Bool) (item : Parser α) :
    (limit : Nat) → Parser (List α)
  | 0 => pure []
  | limit + 1 => fun lexer =>
      if promises lexer.current.lexeme then
        bind item (fun value => bind (repeatWhile promises item limit) fun values =>
          pure (value :: values)) lexer
      else pure [] lexer

/-- More than the number of tokens left. Tokens take a byte at least, except for
those that begin and end the source. -/
def tokenBound (lexer : Lexer) : Nat :=
  lexer.source.size + 2 - lexer.current.ordinal

end Parser

namespace Rule

/-- Reads by a rule, given how to read what lies a level deeper. Every item of a
repetition takes a token, so no repetition reaches its bound. -/
def run (deeper : (nonterminal : Nonterminal) → Parser nonterminal.Tree) {α : Type} :
    Rule α → Parser α
  | .pure value => Parser.pure value
  | .bind first second =>
      Parser.bind (first.run deeper) fun value => (second value).run deeper
  | .peek vantage =>
      Parser.bind (Parser.look vantage) fun token => Parser.pure token.lexeme
  | .advance => Parser.bind (Parser.ask Lexer.advance) fun _ => Parser.pure ()
  | .refuse blamed fault => Parser.refuse blamed fault
  | .located rule => Parser.located (rule.run deeper)
  | .repeatWhile promises item => fun lexer =>
      Parser.repeatWhile promises (item.run deeper) (Parser.tokenBound lexer) lexer
  | .nested nonterminal => deeper nonterminal

end Rule

namespace Parser

/-- Reads a part with at most `depth` levels of parts within one another. A part
that has no level left is refused before anything of it is taken. -/
def nonterminal (limit : Nat) : (depth : Nat) → (part : Nonterminal) → Parser part.Tree
  | 0, _ => refuse .current (.nestedTooDeep limit)
  | depth + 1, part => (Grammar.production part).run (nonterminal limit depth)

def ofRule {α : Type} (rule : Rule α) (limit : Nat) : Parser α :=
  rule.run (nonterminal limit limit)

end Parser

end GraphQL
