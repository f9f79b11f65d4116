import GraphQL.Source.Excerpt

/-! Excerpts in the numbers of a machine.

Numbers are words there, and the size of a text is at most half of a word. An excerpt
needs sums and rows of spaces, and there is none if one of these is too large. -/

namespace GraphQL

open Text

/-- Numbers are smaller than this. -/
def wordLimit : Nat := UInt64.size

/-- Texts are shorter than this, in bytes. -/
def textLimit : Nat := UInt64.size / 2

/-- A text, if there can be such a text. -/
def text? (text : List Char) : Option (List Char) :=
  if byteSize text < textLimit then some text else none

namespace Source

end Source

end GraphQL
