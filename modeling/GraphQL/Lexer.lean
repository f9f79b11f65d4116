import GraphQL.Lexical.Scan

/-! Reading a source token by token, on demand.

A lexer keeps every token it has read, and reads another only when that is asked
for. Comments stay among the tokens but are never the current one. -/

namespace GraphQL

/-- The tokens read so far, seen from the current one. -/
structure Lexer where
  source : Source
  /-- The tokens before the current one, nearest first. -/
  before : List Token
  current : Token
  /-- The token that was current before the last step. -/
  last : Token
  /-- The tokens after the current one that have been read already. -/
  after : List Token
  /-- The place after the last token read. -/
  frontier : Cursor

namespace Lexer

def start (source : Source) : Lexer :=
  ⟨source, [], .startOfFile, .startOfFile, [], .start source⟩

def tokens (lexer : Lexer) : List Token :=
  lexer.before.reverse ++ lexer.current :: lexer.after

def significantTokens (lexer : Lexer) : List Token :=
  lexer.tokens.filter Token.isSignificant

def tokenBefore (lexer : Lexer) (token : Token) : Option Token :=
  if token.index = 0 then none else lexer.tokens[token.index - 1]?

def tokenAfter (lexer : Lexer) (token : Token) : Option Token :=
  lexer.tokens[token.index + 1]?

/-- Reads on to the next token that the grammar sees, and keeps what it reads. -/
def readOn (lexer : Lexer) : Except LexicalError Token × Lexer :=
  let stretch := lexer.frontier.scanSignificant lexer.source
  (stretch.outcome,
    { lexer with after := lexer.after ++ stretch.tokens, frontier := stretch.cursor })

/-- The next token that the grammar sees. Nothing follows the end of the source
but the end itself. -/
def lookahead (lexer : Lexer) : Except LexicalError Token × Lexer :=
  if lexer.current.isEndOfFile then (.ok lexer.current, lexer)
  else
    match lexer.after.find? Token.isSignificant with
    | some token => (.ok token, lexer)
    | none => lexer.readOn

def step (lexer : Lexer) : Lexer :=
  match lexer.after.dropWhile (!·.isSignificant) with
  | [] => { lexer with last := lexer.current }
  | token :: after =>
      let comments := lexer.after.takeWhile (!·.isSignificant)
      { lexer with
        before := comments.reverse ++ lexer.current :: lexer.before
        current := token
        last := lexer.current
        after }

/-- Moves on to the next token that the grammar sees. If there is none because of
a fault, the current token stays. -/
def advance (lexer : Lexer) : Except LexicalError Token × Lexer :=
  match lexer.lookahead with
  | (.ok token, lexer) => (.ok token, lexer.step)
  | (.error error, lexer) => (.error error, lexer)

/-- Reads the rest of the source and gives all its tokens. -/
def intoTokens (lexer : Lexer) : Except LexicalError (List Token) :=
  if lexer.tokens.any Token.isEndOfFile then .ok lexer.tokens
  else
    let stretch := lexer.frontier.scanAll lexer.source
    stretch.outcome.map fun _ => lexer.tokens ++ stretch.tokens

end Lexer

end GraphQL
