import GraphQL.Proofs.Lexing.Places
import GraphQL.Proofs.Lexing.Tiling

/-! Offsets and pairs of a line and a column stand for one another.

An offset is put on a line by a walk over the text in front of it, and the lines are cut
from the whole text. Both agree at every offset that is not within CR LF. -/

namespace GraphQL

open Text

variable {first second : List Char}

/-! ## Lines -/

namespace Text

theorem head?_lines (text : List Char) :
    (lines text).head? = some (text.takeWhile (!isLineEnd ·)) := by
  fun_cases lines text with
  | case1 => rfl
  | case2 rest => rfl
  | case3 char rest _ isEnd => simp [isEnd]
  | case4 char rest _ notEnd =>
      obtain ⟨line, more, equal⟩ := List.exists_cons_of_ne_nil (lines_ne_nil rest)
      have first := head?_lines rest
      rw [equal, List.head?_cons, Option.some.injEq] at first
      simp [equal, consFirst, notEnd, first]

/-- The byte offset at which a line begins, given how many lines there are
in front of it -/
def lineStart : (count : Nat) → List Char → Nat
  | 0, _ => 0
  | _ + 1, [] => 0
  | count + 1, '\r' :: '\n' :: rest => byteSize ['\r', '\n'] + lineStart count rest
  | count + 1, char :: rest =>
      char.utf8Size + if isLineEnd char then lineStart count rest
        else lineStart (count + 1) rest

example : lineStart 2 "é\r\n\rb".toList = 5 := by decide

@[simp] theorem lineStart_zero (text : List Char) : lineStart 0 text = 0 := by
  cases text <;> rfl

section

variable {char : Char} {rest : List Char}

theorem lines_cons (alone : ∀ more, char = '\r' → rest ≠ '\n' :: more) :
    lines (char :: rest) = if isLineEnd char then [] :: lines rest
      else consFirst char (lines rest) := by
  rw [lines.eq_def]
  split
  next equal => cases equal
  next more equal =>
    cases equal
    exact (alone more rfl rfl).elim
  next equal =>
    cases equal
    rfl

theorem lineStart_cons (alone : ∀ more, char = '\r' → rest ≠ '\n' :: more) (count : Nat) :
    lineStart (count + 1) (char :: rest) =
      char.utf8Size + if isLineEnd char then lineStart count rest
        else lineStart (count + 1) rest := by
  rw [lineStart.eq_def]
  split
  next equal => cases equal
  next equal => cases equal
  next more _ equal =>
    cases equal
    exact (alone more rfl rfl).elim
  next count _ _ _ same equal =>
    cases same
    cases equal
    rfl

end

theorem exists_lines_eq_append (text : List Char) :
    ∃ front last, lines text = front ++ [last] :=
  ⟨_, _, (List.dropLast_concat_getLast (lines_ne_nil text)).symm⟩

theorem dropBytes_cons (char : Char) (size : Nat) (rest : List Char) :
    dropBytes (char.utf8Size + size) (char :: rest) = dropBytes size rest := by
  have positive := char.utf8Size_pos
  rw [dropBytes, if_neg (by omega), Nat.add_sub_cancel_left]

/-- A line begins where the text that is left has that line and the ones behind it. -/
theorem lines_dropBytes_lineStart {text : List Char} {count : Nat}
    (lt : count < (lines text).length) :
    lines (dropBytes (lineStart count text) text) = (lines text).drop count := by
  have all : ∀ text, lines (dropBytes 0 text) = lines text := by
    intro text
    cases text <;> simp [dropBytes]
  fun_induction lines text generalizing count with
  | case1 =>
      obtain rfl : count = 0 := by simpa using lt
      rfl
  | case2 rest induction =>
      cases count with
      | zero => exact all _
      | succ count =>
          rw [lineStart, byteSize_cons, byteSize_cons, byteSize_nil, Nat.add_zero,
            Nat.add_assoc, dropBytes_cons,
            dropBytes_cons, induction (Nat.lt_of_succ_lt_succ lt), List.drop_succ_cons]
  | case3 char rest alone isEnd induction =>
      cases count with
      | zero => rw [lineStart_zero, all, lines_cons alone, if_pos isEnd, List.drop_zero]
      | succ count =>
          rw [lineStart_cons alone, if_pos isEnd, dropBytes_cons,
            induction (Nat.lt_of_succ_lt_succ lt), List.drop_succ_cons]
  | case4 char rest alone notEnd induction =>
      rw [length_consFirst (lines_ne_nil rest)] at lt
      cases count with
      | zero => rw [lineStart_zero, all, lines_cons alone, if_neg notEnd, List.drop_zero]
      | succ count =>
          rw [lineStart_cons alone, if_neg notEnd, dropBytes_cons, induction lt]
          cases lines rest <;> simp [consFirst]

theorem getElem?_lines_append (uncut : Uncut first second) {front : List (List Char)}
    {last : List Char} (split : lines first = front ++ [last]) :
    (lines (first ++ second))[front.length]? =
      some (last ++ second.takeWhile (!isLineEnd ·)) ∧
      byteSize first = lineStart front.length (first ++ second) + byteSize last := by
  fun_induction lines first generalizing front last with
  | case1 =>
      obtain ⟨rfl, rfl⟩ : front = [] ∧ last = [] := by
        cases front with
        | nil => simpa using split.symm
        | cons line front => simp at split
      simpa [List.head?_eq_getElem?] using head?_lines second
  | case2 rest induction =>
      cases front with
      | nil => simp [lines_ne_nil] at split
      | cons line front =>
          obtain ⟨rfl, behind⟩ := List.cons.inj split
          obtain ⟨line, start⟩ := induction uncut.of_cons.of_cons behind
          refine ⟨line, ?_⟩
          simp only [List.cons_append, List.length_cons, lineStart, byteSize_cons,
            byteSize_nil, start]
          omega
  | case3 char rest alone isEnd induction =>
      have alone' := uncut.alone alone
      cases front with
      | nil => simp [lines_ne_nil] at split
      | cons line front =>
          obtain ⟨rfl, behind⟩ := List.cons.inj split
          obtain ⟨line, start⟩ := induction uncut.of_cons behind
          rw [List.cons_append, lines_cons alone', if_pos isEnd, List.length_cons,
            lineStart_cons alone', if_pos isEnd, byteSize_cons, start, Nat.add_assoc]
          exact ⟨line, rfl⟩
  | case4 char rest alone notEnd induction =>
      have alone' := uncut.alone alone
      obtain ⟨line, more, equal⟩ := List.exists_cons_of_ne_nil (lines_ne_nil rest)
      obtain ⟨line', more', equal'⟩ :=
        List.exists_cons_of_ne_nil (lines_ne_nil (rest ++ second))
      rw [equal, consFirst] at split
      rw [List.cons_append, lines_cons alone', if_neg notEnd, equal', consFirst]
      cases front with
      | nil =>
          obtain ⟨rfl, rfl⟩ := List.cons.inj split
          obtain ⟨found, start⟩ :=
            induction uncut.of_cons (equal.trans (List.nil_append _).symm)
          rw [equal'] at found
          simp_all
      | cons first front =>
          obtain ⟨rfl, rfl⟩ := List.cons.inj split
          obtain ⟨found, start⟩ :=
            induction uncut.of_cons (equal.trans (List.cons_append ..).symm)
          rw [equal', List.length_cons, List.getElem?_cons_succ] at found
          refine ⟨by simpa using found, ?_⟩
          rw [List.length_cons, lineStart_cons alone', if_neg notEnd, byteSize_cons,
            start, Nat.add_assoc]
          rfl

end Text

/-! ## Walking on -/

namespace Location

/-- The one place comes before the other, on an earlier line or on the same. -/
def Before (location other : Location) : Prop :=
  location.line < other.line ∨ location.line = other.line ∧ location.column < other.column

theorem le_after (location : Location) (text : List Char) :
    location.line < (location.after text).line ∨
      location.line = (location.after text).line ∧
      location.column ≤ (location.after text).column := by
  fun_induction after location text with
  | case1 => exact .inr ⟨rfl, Nat.le_refl _⟩
  | case2 location rest induction | case3 location char rest alone isEnd induction =>
      rw [line_nextLine] at induction
      omega
  | case4 location char rest alone notEnd induction =>
      simp only at induction
      omega

theorem before_after (location : Location) {text : List Char} (nonempty : text ≠ []) :
    location.Before (location.after text) := by
  fun_cases after location text with
  | case1 => exact (nonempty rfl).elim
  | case2 rest | case3 char rest alone isEnd =>
      have le := location.nextLine.le_after rest
      rw [line_nextLine] at le
      simp only [Before]
      omega
  | case4 char rest alone notEnd =>
      have le := le_after ⟨location.line, location.column + 1⟩ rest
      simp only [Before] at le ⊢
      omega

/-- The place of a character boundary counts the lines in front of it, and the characters
on the last of them. -/
theorem ofOffset_eq {first : List Char} {front : List (List Char)} {last : List Char}
    (split : lines first = front ++ [last]) (second : List Char) :
    ofOffset (first ++ second) (byteSize first) =
      ⟨front.length + 1, last.length + 1⟩ := by
  have line := origin.line_after first
  have column := origin.column_after first
  rw [split, List.length_append, List.length_singleton] at line
  rw [split, List.getLastD_concat] at column
  rw [ofOffset_byteSize]
  change _ = 1 + _ at line
  change _ = (if _ then 1 else 1) + _ at column
  rw [ite_self] at column
  calc origin.after first = ⟨(origin.after first).line, (origin.after first).column⟩ :=
    rfl
      _ = _ := by
        rw [column, Nat.add_comm 1, Nat.succ.inj (line.trans (Nat.add_comm 1 _))]

end Location

/-! ## Places -/

/-- The offset is that of a character or of the end, and is not within CR LF. -/
def Source.HasPlace (source : Source) (offset : Nat) : Prop :=
  ∃ passed rest, source.chars = passed ++ rest ∧ offset = byteSize passed ∧
    Uncut passed rest

/-- The line and the column of the offset are among those of the source, and
lead back to it. -/
structure Source.Resolves (source : Source) (offset : Nat) : Prop where
  line_pos : 1 ≤ (source.locationAt offset).line
  line_le : (source.locationAt offset).line ≤ (lines source.chars).length
  column_pos : 1 ≤ (source.locationAt offset).column
  offset_eq : ∃ line, (lines source.chars)[(source.locationAt offset).line - 1]? =
    some line ∧
    (source.locationAt offset).column - 1 ≤ line.length ∧
      offset = lineStart ((source.locationAt offset).line - 1) source.chars +
        byteSize (line.take ((source.locationAt offset).column - 1))
  /-- That is where the line begins. -/
  begins : lines (dropBytes
    (lineStart ((source.locationAt offset).line - 1) source.chars) source.chars) =
    (lines source.chars).drop ((source.locationAt offset).line - 1)

variable {source : Source} {offset offset' : Nat}

theorem Source.HasPlace.resolves (place : source.HasPlace offset) :
    source.Resolves offset := by
  obtain ⟨passed, rest, whole, rfl, uncut⟩ := place
  obtain ⟨front, last, split⟩ := exists_lines_eq_append passed
  have location :
      source.locationAt (byteSize passed) = ⟨front.length + 1, last.length + 1⟩ := by
    rw [Source.locationAt, whole, Location.ofOffset_eq split]
  obtain ⟨found, start⟩ := getElem?_lines_append uncut split
  rw [← whole] at found start
  have lt := (List.getElem?_eq_some_iff.mp found).1
  constructor <;> rw [location]
  · exact Nat.le_add_left ..
  · exact lt
  · exact Nat.le_add_left ..
  · exact ⟨_, found, by simp, by simpa using start⟩
  · exact lines_dropBytes_lineStart lt

theorem Source.HasPlace.before (place : source.HasPlace offset)
    (place' : source.HasPlace offset')
    (lt : offset < offset') :
    (source.locationAt offset).Before (source.locationAt offset') := by
  obtain ⟨passed, rest, whole, rfl, uncut⟩ := place
  obtain ⟨passed', rest', whole', rfl, _⟩ := place'
  have further : passed <+: passed' := by
    rcases List.prefix_or_prefix_of_prefix ⟨rest, whole.symm⟩
      ⟨rest', whole'.symm⟩ with further | ⟨more, back⟩
    · exact further
    · rw [← back, byteSize_append] at lt
      omega
  obtain ⟨more, rfl⟩ := further
  have nonempty : more ≠ [] := by
    rintro rfl
    simp at lt
  rw [Source.locationAt, Source.locationAt, whole', Location.ofOffset_byteSize,
    List.append_assoc, Location.ofOffset_byteSize]
  rw [whole', List.append_assoc, List.append_cancel_left_eq] at whole
  rw [← whole] at uncut
  rw [Location.after_append uncut.of_append]
  exact Location.before_after _ nonempty

theorem Text.takeBytes_of_le {size : Nat} {text : List Char} (le : byteSize text ≤ size) :
    takeBytes size text = (text, true) := by
  induction text generalizing size with
  | nil => rfl
  | cons char rest induction =>
      rw [byteSize_cons] at le
      have positive := char.utf8Size_pos
      rw [takeBytes, if_neg (by omega), if_neg (by omega), induction (by omega)]

theorem Source.locationAt_of_le (le : source.size ≤ offset) :
    source.locationAt offset = source.locationAt source.size := by
  rw [source.size_eq] at le ⊢
  rw [Source.locationAt, Source.locationAt, Location.ofOffset, Location.ofOffset,
    takeBytes_of_le le, takeBytes_of_le (Nat.le_refl _)]

/-- Offsets and pairs of a line and a column correspond: a pair leads back to its offset,
pairs are in the order of their offsets, and offsets behind the end count as the end. -/
theorem locationAt_resolves (source : Source) :
    (∀ offset, source.HasPlace offset → source.Resolves offset) ∧
    (∀ offset offset', source.HasPlace offset → source.HasPlace offset' →
      offset < offset' →
      (source.locationAt offset).Before (source.locationAt offset')) ∧
    ∀ offset, source.size ≤ offset →
    source.locationAt offset = source.locationAt source.size :=
  ⟨fun _ => Source.HasPlace.resolves, fun _ _ => Source.HasPlace.before, fun _ =>
    Source.locationAt_of_le⟩

theorem returns_resolve :
    Source.HasPlace { body := "é\r\nb" } 2 ∧ Source.HasPlace { body := "é\r\nb" } 4 ∧
      Source.Resolves { body := "é\r\nb" } 4 ∧
      Location.Before (Source.locationAt { body := "é\r\nb" } 2)
        (Source.locationAt { body := "é\r\nb" } 4) ∧
      Source.locationAt { body := "é\r\nb" } 9 =
        Source.locationAt { body := "é\r\nb" } (Source.size { body := "é\r\nb" }) := by
  have place : Source.HasPlace { body := "é\r\nb" } 2 :=
    ⟨['é'], ['\r', '\n', 'b'], by decide, by decide, fun _ => by decide⟩
  have place' : Source.HasPlace { body := "é\r\nb" } 4 :=
    ⟨['é', '\r', '\n'], ['b'], by decide, by decide, fun _ => by decide⟩
  obtain ⟨resolves, before, behind⟩ := locationAt_resolves { body := "é\r\nb" }
  exact ⟨place, place', resolves 4 place', before 2 4 place place' (by decide),
    behind 9 (by decide)⟩

end GraphQL
