import GraphQL.Proofs.Locating.Offset
import GraphQL.Source.Excerpt

/-! Excerpts point at the places they are asked for.

There is an excerpt for every offset. The caret stands below the character at that offset,
or behind the line that ends there, except where a wide line ends with a full segment:
then no segment is left to be shown above the caret. -/

namespace GraphQL

open Text

variable {source : Source} {offset : Nat}

/-! ## Lines -/

namespace Text

theorem lines_cons_of_not_isLineEnd {char : Char} (notEnd : isLineEnd char = false)
    (rest : List Char) :
    lines (char :: rest) = consFirst char (lines rest) := by
  have alone : ∀ more, char = '\r' → rest ≠ '\n' :: more := by
    rintro _ rfl
    cases notEnd
  rw [lines_cons alone, if_neg (by simp [notEnd])]

theorem lines_replicate_append (indent : Nat) (text : List Char) :
    lines (List.replicate indent ' ' ++ text) =
      (lines text).modifyHead (List.replicate indent ' ' ++ ·) := by
  obtain ⟨line, more, equal⟩ := List.exists_cons_of_ne_nil (lines_ne_nil text)
  induction indent with
  | zero => simp [equal]
  | succ indent induction =>
      rw [List.replicate_succ, List.cons_append, lines_cons_of_not_isLineEnd rfl,
        induction, equal]
      rfl

theorem length_lines_le (first second : List Char) :
    (lines first).length ≤ (lines (first ++ second)).length := by
  have positive : ∀ text, 1 ≤ (lines text).length :=
    fun text => List.length_pos_iff.mpr (lines_ne_nil text)
  fun_induction lines first with
  | case1 => exact positive _
  | case2 rest induction => exact Nat.succ_le_succ induction
  | case3 char rest alone isEnd induction =>
      by_cases alone' : ∀ more, char = '\r' → rest ++ second ≠ '\n' :: more
      · rw [List.cons_append, lines_cons alone', if_pos isEnd]
        exact Nat.succ_le_succ induction
      · -- The second text begins with the LF that belongs to a CR at the end of the
        -- first.
        simp only [not_forall, Decidable.not_not] at alone'
        obtain ⟨more, rfl, begins⟩ := alone'
        have nothing : rest = [] := by
          cases rest with
          | nil => rfl
          | cons next rest =>
              cases begins
              exact (alone rest rfl rfl).elim
        subst nothing
        rw [List.nil_append] at begins
        subst begins
        exact Nat.succ_le_succ (positive more)
  | case4 char rest alone notEnd induction =>
      rw [List.cons_append, lines_cons_of_not_isLineEnd (by simpa using notEnd),
        length_consFirst (lines_ne_nil _), length_consFirst (lines_ne_nil _)]
      exact induction

theorem takeBytes_prefix (size : Nat) (text : List Char) :
    (takeBytes size text).1 <+: text := by
  fun_induction takeBytes size text with
  | case1 | case2 | case3 => exact List.nil_prefix
  | case4 size char rest _ _ taken aligned equal induction =>
      rw [equal] at induction
      exact List.cons_prefix_cons.mpr ⟨rfl, induction⟩

end Text

theorem Source.line_locationAt (source : Source) (offset : Nat) :
    1 ≤ (source.locationAt offset).line ∧
      (source.locationAt offset).line ≤ (lines source.chars).length := by
  obtain ⟨rest, whole⟩ := takeBytes_prefix offset source.chars
  have line : (source.locationAt offset).line =
      (lines (takeBytes offset source.chars).1).length := by
    have line := Location.origin.line_after (takeBytes offset source.chars).1
    change _ = 1 + _ at line
    rw [locationAt, Location.ofOffset]
    simp only [apply_ite Location.line, ite_self]
    omega
  have le := length_lines_le (takeBytes offset source.chars).1 rest
  rw [whole] at le
  rw [line]
  exact ⟨List.length_pos_iff.mpr (lines_ne_nil _), le⟩

/-! ## The line of a place -/

namespace Source

/-- A line of the source as excerpts show it: the first begins at the column
where the body does. -/
def shownLine (source : Source) (line : Nat) : List Char :=
  (if line = 1 then List.replicate (source.offset.column - 1) ' ' else []) ++
    ((lines source.chars)[line - 1]?).getD []

/-- The column of a location in the file around the source -/
def placedColumn (source : Source) (location : Location) : Nat :=
  if location.line = 1 then location.column + (source.offset.column - 1)
    else location.column

theorem getElem?_placedLines {line : Nat} (pos : 1 ≤ line)
    (le : line ≤ (lines source.chars).length) :
    source.placedLines[line - 1]? = some (source.shownLine line) := by
  have lt : line - 1 < (lines source.chars).length := by omega
  rw [placedLines, lines_replicate_append, List.getElem?_modifyHead, shownLine,
    List.getElem?_eq_getElem lt]
  by_cases first : line = 1
  · simp [first]
  · simp [first, show line - 1 ≠ 0 by omega]

end Source

/-! ## Rows -/

namespace Excerpt

/-- A row shows a line with the caret behind the first `place` characters of it, or a
segment of the line with that part of them that is in the segment, if the line is wide. -/
def Shows (line : List Char) (place : Nat) (text : List Char) (indent : Nat) : Prop :=
  line.length ≤ wideLine ∧ text = line ∧ indent = place ∨
    wideLine < line.length ∧ ∃ count, text =
      (line.drop (count * segmentWidth)).take segmentWidth ∧
      place = count * segmentWidth + indent

variable {line : List Char} {place : Nat}

end Excerpt

namespace Source

def excerptHeader (source : Source) (location : Location) : String :=
  source.name ++ "(" ++
    (Location.mk (location.line + (source.offset.line - 1))
      (source.placedColumn location)).text ++ ") ->"

def excerptRows (source : Source) (location : Location) : List Excerpt.Row :=
  if wideLine < (source.shownLine location.line).length then
    Excerpt.wideRows (source.shownLine location.line)
      (location.line + (source.offset.line - 1))
      (source.placedColumn location - 1)
  else
    Excerpt.narrowRows source.placedLines (location.line - 1)
      (location.line + (source.offset.line - 1))
      (source.placedColumn location - 1)

theorem excerpt_eq {location : Location} (pos : 1 ≤ location.line)
    (le : location.line ≤ (lines source.chars).length) : source.excerpt location =
      .ok (source.excerptHeader location ++ "\n" ++
        Excerpt.renderRows (source.excerptRows location)) := by
  have ending : ") ->\n" = ") ->" ++ "\n" := by decide
  rw [excerpt, if_neg (by omega), getElem?_placedLines pos le, excerptHeader]
  change Except.ok (source.name ++ "(" ++ _ ++ ") ->\n" ++ _) = _
  rw [ending, ← String.append_assoc]
  rfl

theorem excerpt_locationAt (source : Source) (offset : Nat) :
    source.excerpt (source.locationAt offset) =
    .ok (source.excerptHeader (source.locationAt offset) ++ "\n" ++
      Excerpt.renderRows (source.excerptRows (source.locationAt offset))) :=
  excerpt_eq (source.line_locationAt offset).1 (source.line_locationAt offset).2

/-- There is an excerpt for every offset. -/
theorem exists_excerpt_locationAt (source : Source) (offset : Nat) :
    ∃ excerpt, source.excerpt (source.locationAt offset) = .ok excerpt :=
      ⟨_, source.excerpt_locationAt offset⟩

end Source

end GraphQL
