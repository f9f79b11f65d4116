import GraphQL.Source
import GraphQL.Text.Hexadecimal

/-! Excerpts of a source with a caret under the place a report is about. -/

namespace GraphQL

open Text

/-- Lines wider than this are shown in segments. -/
def wideLine : Nat := 120

def segmentWidth : Nat := 80

structure LineOutOfRange where
  line : Nat
  lineCount : Nat
  deriving DecidableEq, Repr

def LineOutOfRange.message (error : LineOutOfRange) : String :=
  "line " ++ toString error.line ++ " is outside of the source, which has " ++
    toString error.lineCount ++ " line(s)"

namespace Excerpt

/-- A row of an excerpt: what stands in the margin, and the text beside it. -/
structure Row where
  label : String
  content : List Char
  deriving DecidableEq, Repr

/-- The row that points at the character after the first `indent`. -/
def caret (indent : Nat) : Row :=
  ⟨"", List.replicate indent ' ' ++ ['^']⟩

def row? (label : String) (content : Option (List Char)) : List Row :=
  (content.map (Row.mk label)).toList

/-- The part of a line that begins after `count` segments. -/
def segment? (line : List Char) (count : Nat) : Option (List Char) :=
  let rest := line.drop (count * segmentWidth)
  if rest.isEmpty then none else some (rest.take segmentWidth)

/-- A wide line is shown by the segment with the caret and the one after it. -/
def wideRows (line : List Char) (number indent : Nat) : List Row :=
  let count := indent / segmentWidth
  row? (toString number) (segment? line count) ++
    [caret (indent % segmentWidth)] ++ row? "" (segment? line (count + 1))

/-- Any other line is shown between its neighbours. -/
def narrowRows (lines : List (List Char)) (index number indent : Nat) : List Row :=
  let previous := if index = 0 then none else lines[index - 1]?
  row? (toString (number - 1)) previous ++ row? (toString number) lines[index]? ++
    [caret indent] ++ row? (toString (number + 1)) lines[index + 1]?

def renderRow (width : Nat) (row : Row) : String :=
  let margin := padLeft width ' ' row.label ++ " |"
  if row.content.isEmpty then margin else margin ++ " " ++ String.ofList row.content

def renderRows (rows : List Row) : String :=
  let width := (rows.map (·.label.length)).foldl max 0
  "\n".intercalate (rows.map (renderRow width))

end Excerpt

namespace Source

/-- The lines of the body, with the first moved to the column it begins at. -/
def placedLines (source : Source) : List (List Char) :=
  lines (List.replicate (source.offset.column - 1) ' ' ++ source.chars)

/-- An excerpt around a place in the body. Lines and columns are counted from
where the body begins. -/
def excerpt (source : Source) (location : Location) : Except LineOutOfRange String :=
  let lines := source.placedLines
  match (if location.line = 0 then none else lines[location.line - 1]?) with
  | none => .error ⟨location.line, lines.length⟩
  | some line =>
      let number := location.line + (source.offset.line - 1)
      let column :=
        if location.line = 1 then location.column + (source.offset.column - 1)
        else location.column
      let rows :=
        if wideLine < line.length then Excerpt.wideRows line number (column - 1)
        else Excerpt.narrowRows lines (location.line - 1) number (column - 1)
      .ok (source.name ++ "(" ++ (Location.mk number column).text ++ ") ->\n" ++
        Excerpt.renderRows rows)

end Source

end GraphQL
