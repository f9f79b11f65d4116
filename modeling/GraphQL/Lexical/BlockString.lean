import GraphQL.Lexical.QuotedString
import GraphQL.Text.Dedent

/-! Strings between triple quotes, which may span lines. -/

namespace GraphQL

open Text

def tripleQuote : List Char := ['"', '"', '"']

/-- Reads on to the closing quotes. A backslash in front of three quotes makes
them part of the string; it escapes nothing else. -/
def readBlock : List Char → Except Misread StringContent
  | [] => .error ⟨.unterminatedString, []⟩
  | '"' :: '"' :: '"' :: rest => .ok ⟨[], tripleQuote, rest⟩
  | '\\' :: '"' :: '"' :: '"' :: rest =>
      StringContent.precede ('\\' :: tripleQuote) tripleQuote (readBlock rest)
  | char :: rest =>
      if isForbiddenControl char then .error ⟨.invalidStringCharacter char, []⟩
      else StringContent.precede [char] [char] (readBlock rest)

def readBlockString (text : List Char) : Except Misread Reading :=
  match readBlock text with
  | .ok content =>
      .ok ⟨.blockString (String.ofList (dedent content.value)),
        tripleQuote ++ content.text, content.rest⟩
  | .error misread => .error (misread.after tripleQuote)

end GraphQL
