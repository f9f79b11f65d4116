import GraphQL.Text.Line

/-! Where a character stands: its byte offset, and its line and column.

Lines and columns count from one, and a column counts characters. `Location.after`
walks over the text in between, so a scanner that keeps its place and a rescan
from the beginning are the same computation cut at different points. -/

namespace GraphQL

open Text

/-- A line and a column, both counted from one. -/
structure Location where
  line : Nat
  column : Nat
  deriving DecidableEq, Repr

namespace Location

def origin : Location := ⟨1, 1⟩

instance : Inhabited Location := ⟨origin⟩

def nextLine (location : Location) : Location := ⟨location.line + 1, 1⟩

/-- Where the text after `covered` begins. CR LF ends one line, not two. -/
def after (location : Location) : List Char → Location
  | [] => location
  | '\r' :: '\n' :: rest => location.nextLine.after rest
  | char :: rest =>
      if isLineEnd char then location.nextLine.after rest
      else after ⟨location.line, location.column + 1⟩ rest

example : origin.after "a\r\nbc".toList = ⟨2, 3⟩ := by decide

/-- The place of a byte offset in `body`. Offsets past the end count as the end,
and an offset inside a character is put in the first column of its line. -/
def ofOffset (body : List Char) (offset : Nat) : Location :=
  let (covered, aligned) := takeBytes offset body
  if aligned then origin.after covered else ⟨(origin.after covered).line, 1⟩

theorem ofOffset_byteSize (covered rest : List Char) :
    ofOffset (covered ++ rest) (byteSize covered) = origin.after covered := by
  simp [ofOffset, takeBytes_byteSize_append]

def text (location : Location) : String :=
  toString location.line ++ ":" ++ toString location.column

end Location

/-! ## Positions -/

/-- A byte offset together with the line and column it stands at. -/
structure Position where
  offset : Nat
  location : Location
  deriving DecidableEq, Repr

namespace Position

def origin : Position := ⟨0, .origin⟩

instance : Inhabited Position := ⟨origin⟩

def after (position : Position) (covered : List Char) : Position :=
  ⟨position.offset + byteSize covered, position.location.after covered⟩

end Position

/-! ## Spans -/

/-- The bytes from `start` up to but not including `stop`. -/
structure Span where
  start : Nat
  stop : Nat
  deriving DecidableEq, Repr

namespace Span

def length (span : Span) : Nat := span.stop - span.start

def isEmpty (span : Span) : Bool := span.start == span.stop

end Span

end GraphQL
