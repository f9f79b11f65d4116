import GraphQL.CommandLine.FileTree
import GraphQL.CommandLine.Outcome
import GraphQL.Parse
import GraphQL.Text.Hexadecimal
import GraphQL.Text.WhiteSpace

/-! Listing the tokens of a file. -/

namespace GraphQL.Tokens

open Text

/-- The place, the span and the description of a token, in columns. -/
def tokenLine (token : Token) : String :=
  padLeft 5 ' ' (toString token.line) ++ ":" ++
    padRight 4 ' ' (toString token.column) ++ " " ++
    padLeft 6 ' ' (toString token.span.start) ++ ".." ++
    padRight 6 ' ' (toString token.span.stop) ++ " " ++ token.description

/-- A line for every token, and a line feed behind each of them. -/
def printLines (tokens : List Token) : String :=
  String.join (tokens.map fun token => tokenLine token ++ "\n")

/-- Lists the tokens of the file at a path. -/
def run (system : FileSystem) (path : String) : Outcome :=
  match system.readText path with
  | .error error => .failure ("❌ Failed to read " ++ path ++ ": " ++ error.message)
  | .ok body =>
      match tokensOf { body, name := path } with
      | .ok tokens => .success (trimEnd (printLines tokens))
      | .error diagnostic => .failure ("❌ " ++ diagnostic.detailed)

end GraphQL.Tokens
