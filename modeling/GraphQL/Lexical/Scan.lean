import GraphQL.Lexical.Token
import GraphQL.Source
import GraphQL.Token.Basic

/-! Reading the tokens of a source one after another. -/

namespace GraphQL

open Text

/-- The place a scan has come to, and what lies ahead of it. -/
structure Cursor where
  rest : List Char
  position : Position
  index : Nat
  ordinal : Nat
  deriving DecidableEq, Repr

namespace Cursor

def start (source : Source) : Cursor :=
  ⟨source.chars, .origin, 1, 1⟩

/-- Reads the next token. A fault is placed by the characters in front of it. -/
def next (cursor : Cursor) : Except LexicalError (Token × Cursor) :=
  let start := cursor.position.after (cursor.rest.takeWhile isIgnored)
  match readToken (cursor.rest.dropWhile isIgnored) with
  | .error misread => .error ⟨misread.fault, (start.after misread.text).offset⟩
  | .ok reading =>
      let stop := start.after reading.text
      let ordinal :=
        if reading.lexeme.isSignificant then cursor.ordinal + 1 else cursor.ordinal
      .ok (⟨reading.lexeme, start, stop.offset, cursor.index, cursor.ordinal⟩,
        ⟨reading.rest, stop, cursor.index + 1, ordinal⟩)

end Cursor

/-- The tokens of a stretch of source, up to one that was looked for. -/
structure Stretch where
  passed : List Token
  /-- The token looked for, or why it could not be reached. -/
  outcome : Except LexicalError Token
  cursor : Cursor

namespace Stretch

def tokens (stretch : Stretch) : List Token :=
  match stretch.outcome with
  | .ok token => stretch.passed ++ [token]
  | .error _ => stretch.passed

end Stretch

namespace Cursor

/-- Reads tokens until one is wanted, at most `limit` after the first. -/
def scan (wanted : Lexeme → Bool) : (limit : Nat) → Cursor → Stretch
  | 0, cursor =>
      match cursor.next with
      | .error error => ⟨[], .error error, cursor⟩
      | .ok (token, next) => ⟨[], .ok token, next⟩
  | limit + 1, cursor =>
      match cursor.next with
      | .error error => ⟨[], .error error, cursor⟩
      | .ok (token, next) =>
          if wanted token.lexeme then ⟨[], .ok token, next⟩
          else
            let stretch := scan wanted limit next
            { stretch with passed := token :: stretch.passed }

/-- Every token before the end takes at least one byte, so a source has no more
of them than bytes. -/
def remaining (cursor : Cursor) (source : Source) : Nat :=
  source.size - cursor.position.offset

def scanSignificant (cursor : Cursor) (source : Source) : Stretch :=
  cursor.scan Lexeme.isSignificant (cursor.remaining source)

def scanAll (cursor : Cursor) (source : Source) : Stretch :=
  cursor.scan Lexeme.isEndOfFile (cursor.remaining source)

end Cursor

/-- All the tokens of a source, comments included. -/
def tokenize (source : Source) : Except LexicalError (List Token) :=
  let stretch := (Cursor.start source).scanAll source
  stretch.outcome.map fun _ => Token.startOfFile :: stretch.tokens

end GraphQL
