/-! White space. -/

namespace GraphQL.Text

/-- The characters that Unicode counts as white space. -/
def isWhiteSpace (char : Char) : Bool :=
  ('\t' ≤ char && char ≤ '\r') || char = ' ' || char = '\u0085' || char = '\u00a0' ||
    char = '\u1680' || ('\u2000' ≤ char && char ≤ '\u200a') || char = '\u2028' ||
    char = '\u2029' || char = '\u202f' || char = '\u205f' || char = '\u3000'

def trimEnd (text : String) : String :=
  String.ofList (text.toList.reverse.dropWhile isWhiteSpace).reverse

example : trimEnd " a b\n\n" = " a b" := by decide +kernel

end GraphQL.Text
