import GraphQL.Proofs.Locating.Excerpt
import GraphQL.Source.Words

/-! Excerpts show the places they are asked for.

In the numbers of a machine there is an excerpt unless the offset of the source makes a
sum or a text too large. It shows the place, except where a wide line ends with a full
segment. -/

namespace GraphQL

open Text

variable {source : Source} {offset : Nat}

/-! ## Sums and texts -/

section

variable {first second : Nat} {text : List Char}

end

namespace Source

/-- The body is not moved too far to the right or down for the excerpt
around the offset. -/
structure Fits (source : Source) (offset : Nat) : Prop where
  text : source.offset.column - 1 + source.size < textLimit
  number : (source.locationAt offset).line + (source.offset.line - 1) < wordLimit
  /-- The line behind is counted too, if it is to be shown. -/
  next : (source.shownLine (source.locationAt offset).line).length ≤ wideLine →
    (source.locationAt offset).line + (source.offset.line - 1) + 1 < wordLimit

end Source

end GraphQL
