import GraphQL.Text.Location

/-! Named texts. -/

namespace GraphQL

open Text

/-- A text to read, with the name that reports call it by. -/
structure Source where
  body : String
  name : String := "GraphQL request"
  /-- Where the body begins in the file around it. Only excerpts count from here. -/
  offset : Location := .origin
  deriving DecidableEq, Repr

namespace Source

def chars (source : Source) : List Char := source.body.toList

def size (source : Source) : Nat := source.body.utf8ByteSize

/-- The line and column of a byte offset in the body. -/
def locationAt (source : Source) (offset : Nat) : Location :=
  .ofOffset source.chars offset

def textOf (source : Source) (span : Span) : String :=
  String.ofList (takeBytes span.length (dropBytes span.start source.chars)).1

end Source

end GraphQL
