/-! Cutting texts at a character. -/

namespace GraphQL.Text

/-- The parts of a text between the characters equal to `separator`, of which
there is always one at least. -/
def splitAtChar (separator : Char) : List Char → List (List Char)
  | [] => [[]]
  | char :: rest =>
      if char = separator then [] :: splitAtChar separator rest
      else
        match splitAtChar separator rest with
        | [] => [[char]]
        | part :: more => (char :: part) :: more

def splitString (separator : Char) (text : String) : List String :=
  (splitAtChar separator text.toList).map String.ofList

example : splitString ',' "gql,,txt" = ["gql", "", "txt"] := by decide +kernel

end GraphQL.Text
