import GraphQL.Text.Line

/-! The value of a block string.

A block string is usually written with the indentation of the text around it and
with its quotes on lines of their own. Both are layout: the indentation that all
lines share and the blank lines at either end do not belong to the value. -/

namespace GraphQL.Text

/-- Spaces and tabs indent a line. -/
def isBlankChar (char : Char) : Bool :=
  char == ' ' || char == '\t'

def indentation (line : List Char) : Nat :=
  (line.takeWhile isBlankChar).length

/-- A line is blank if its indentation is all of it, byte by byte. -/
def isBlank (line : List Char) : Bool :=
  indentation line == byteSize line

/-- The smallest indentation among `found` and the lines that are not blank. A
line without any ends the search, since none can be smaller. -/
def smallestIndentation (found : Option Nat) : List (List Char) → Option Nat
  | [] => found
  | line :: rest =>
      if isBlank line then smallestIndentation found rest
      else if found.all (indentation line < ·) then
        if indentation line = 0 then some 0
        else smallestIndentation (some (indentation line)) rest
      else smallestIndentation found rest

/-- Removes the indentation common to the given lines. -/
def removeCommonIndentation (lines : List (List Char)) : List (List Char) :=
  lines.map (·.drop ((smallestIndentation none lines).getD 0))

/-- The index of the last line that is not blank. -/
def lastShown? (lines : List (List Char)) : Option Nat :=
  (lines.reverse.findIdx? (!isBlank ·)).map (lines.length - 1 - ·)

/-- Cuts the blank lines off at both ends. -/
def trimBlankLines (lines : List (List Char)) : List (List Char) :=
  let first := (lines.findIdx? (!isBlank ·)).getD lines.length
  let stop := (lastShown? lines).elim first (· + 1)
  (lines.take (max stop first)).drop first

/-- The value of a block string with the given text between its quotes. The
first line follows the quotes, so its indentation counts for nothing. -/
def dedent (raw : List Char) : List Char :=
  match lines raw with
  | [] => []
  | first :: rest => joinLines (trimBlankLines (first :: removeCommonIndentation rest))

example : String.ofList (dedent "\n    Hello,\n      World!\n    ".toList) =
    "Hello,\n  World!" := by
  decide

def dedentString (raw : String) : String :=
  String.ofList (dedent raw.toList)

end GraphQL.Text
