import GraphQL.Proofs.Lexing.LineFeeds
import Mathlib.Data.List.DropRight

/-! What is left of a block string without its layout.

The value is that of a plain account of the rule, which looks for the least indentation
among all lines. Texts that have no layout to be removed are their own values, and no
others. -/

namespace GraphQL.Text

variable {text line : List Char} {rows : List (List Char)}

/-! ## Lines and texts -/

theorem withLineFeeds_of_noReturn (noReturn : '\r' ∉ text) :
    withLineFeeds text = text := by
  induction text with
  | nil => rfl
  | cons char rest induction =>
      obtain ⟨other, noReturn⟩ := List.ne_and_not_mem_of_not_mem_cons noReturn
      rw [withLineFeeds_cons_of_ne other.symm, induction noReturn]

theorem noReturn_withLineFeeds (text : List Char) : '\r' ∉ withLineFeeds text := by
  intro member
  obtain ⟨char, _, isReturn⟩ := List.mem_map.mp member
  exact toLineFeed_ne char isReturn

/-- Lines are what is left between LFs, once LF stands at the end of every line. -/
theorem lines_eq_splitOn (text : List Char) :
    lines text = (withLineFeeds text).splitOn '\n' := by
  have each : ∀ text : List Char, '\r' ∉ text → lines text = text.splitOn '\n' := by
    intro text noReturn
    induction text with
    | nil => rfl
    | cons char rest induction =>
        obtain ⟨other, noReturn⟩ := List.ne_and_not_mem_of_not_mem_cons noReturn
        have isEnd : isLineEnd char = (char == '\n') := by simp [isLineEnd, other.symm]
        obtain ⟨line, more, equal⟩ := List.exists_cons_of_ne_nil (lines_ne_nil rest)
        rw [lines_cons fun _ isReturn => absurd isReturn.symm other,
          induction noReturn, isEnd,
          List.splitOn_eq_splitOnP, List.splitOn_eq_splitOnP,
            List.splitOnP_cons_eq_if_modifyHead]
        rw [induction noReturn, List.splitOn_eq_splitOnP] at equal
        rw [equal]
        rfl
  rw [← lines_withLineFeeds, each _ (noReturn_withLineFeeds text)]

theorem joinLines_lines (noReturn : '\r' ∉ text) : joinLines (lines text) = text := by
  rw [lines_eq_splitOn, withLineFeeds_of_noReturn noReturn]
  exact List.intercalate_splitOn '\n'

theorem noReturn_joinLines
    (oneLine : ∀ row ∈ rows, ∀ char ∈ row, isLineEnd char = false) :
    '\r' ∉ joinLines rows := by
  have outside : ∀ row : List Char, (∀ char ∈ row, isLineEnd char = false) → '\r' ∉ row :=
    fun row oneLine member => by cases oneLine _ member
  induction rows with
  | nil => exact nofun
  | cons row rows induction =>
      obtain ⟨first, others⟩ := List.forall_mem_cons.mp oneLine
      cases rows with
      | nil => simpa [joinLines] using outside row first
      | cons next rows =>
          have behind := induction others
          rw [joinLines] at behind ⊢
          rw [List.intercalate_cons_cons, List.mem_append, List.mem_append,
            not_or, not_or]
          exact ⟨⟨outside row first, by decide⟩, behind⟩

theorem lines_joinLines (nonempty : rows ≠ [])
    (oneLine : ∀ row ∈ rows, ∀ char ∈ row, isLineEnd char = false) :
    lines (joinLines rows) = rows := by
  rw [lines_eq_splitOn, withLineFeeds_of_noReturn (noReturn_joinLines oneLine)]
  refine List.splitOn_intercalate '\n' (fun row member inside => ?_) nonempty
  cases oneLine row member _ inside

theorem oneLine_of_mem_lines (member : line ∈ lines text) :
    ∀ char ∈ line, isLineEnd char = false := by
  fun_induction lines text generalizing line with
  | case1 => simp_all
  | case2 rest induction =>
      rcases List.mem_cons.mp member with rfl | member
      · exact List.forall_mem_nil _
      · exact induction member
  | case3 char rest alone isEnd induction =>
      rcases List.mem_cons.mp member with rfl | member
      · exact List.forall_mem_nil _
      · exact induction member
  | case4 char rest alone notEnd induction =>
      obtain ⟨first, more, equal⟩ := List.exists_cons_of_ne_nil (lines_ne_nil rest)
      rw [equal] at member induction
      rcases List.mem_cons.mp member with rfl | member
      · exact List.forall_mem_cons.mpr ⟨by
          simpa using notEnd, induction (List.mem_cons_self ..)⟩
      · exact induction (List.mem_cons_of_mem _ member)

/-! ## The least indentation -/

/-- The line has no characters but spaces and tabs. -/
def IsBlankLine (line : List Char) : Prop := ∀ char ∈ line, char = ' ' ∨ char = '\t'

instance : DecidablePred IsBlankLine :=
  fun line => inferInstanceAs (Decidable (∀ char ∈ line, _))

def leadingBlanks : List Char → Nat
  | ' ' :: rest => leadingBlanks rest + 1
  | '\t' :: rest => leadingBlanks rest + 1
  | _ => 0

/-- The numbers of spaces and tabs in front of the lines that are not blank -/
def indentations (rows : List (List Char)) : List Nat :=
  (rows.filter (¬ IsBlankLine ·)).map leadingBlanks

/-- The least indentation of the lines that are not blank, and none if all are -/
def leastIndentation (rows : List (List Char)) : Nat := (indentations rows).min?.getD 0

theorem indentation_eq (line : List Char) : indentation line = leadingBlanks line := by
  fun_induction leadingBlanks line with
  | case1 rest induction | case2 rest induction =>
      simp [indentation, ← induction, isBlankChar]
  | case3 line notSpace notTab =>
      cases line with
      | nil => rfl
      | cons char rest =>
          have other : isBlankChar char = false := by
            have space : char ≠ ' ' := fun equal => notSpace rest (equal ▸ rfl)
            have tab : char ≠ '\t' := fun equal => notTab rest (equal ▸ rfl)
            simp [isBlankChar, space, tab]
          simp [indentation, other]

theorem isBlankChar_iff {char : Char} :
    isBlankChar char = true ↔ char = ' ' ∨ char = '\t' := by
  simp [isBlankChar]

theorem byteSize_eq_length (blank : IsBlankLine text) : byteSize text = text.length := by
  induction text with
  | nil => rfl
  | cons char rest induction =>
      obtain ⟨first, others⟩ := List.forall_mem_cons.mp blank
      have one : char.utf8Size = 1 := by rcases first with rfl | rfl <;> rfl
      rw [byteSize_cons, one, induction others, List.length_cons, Nat.add_comm]

theorem isBlank_iff : isBlank line = true ↔ IsBlankLine line := by
  have front : IsBlankLine (line.takeWhile isBlankChar) :=
    fun char member => isBlankChar_iff.mp (List.mem_takeWhile_imp member)
  have whole :=
    congrArg byteSize (List.takeWhile_append_dropWhile (p := isBlankChar) (l := line))
  rw [byteSize_append, byteSize_eq_length front] at whole
  rw [isBlank, beq_iff_eq, indentation]
  constructor
  · intro equal
    have nothing : (line.dropWhile isBlankChar).length = 0 := by
      have le := length_le_byteSize (line.dropWhile isBlankChar)
      omega
    rw [List.length_eq_zero_iff, List.dropWhile_eq_nil_iff] at nothing
    exact fun char member => isBlankChar_iff.mp (nothing char member)
  · intro blank
    rw [byteSize_eq_length blank, List.takeWhile_eq_self_iff.mpr fun char member =>
      isBlankChar_iff.mpr (blank char member)]

theorem isBlank_eq_false_iff : isBlank line = false ↔ ¬ IsBlankLine line := by
  rw [← isBlank_iff, Bool.not_eq_true]

theorem mem_indentations {indent : Nat} :
    indent ∈ indentations rows ↔ ∃ line ∈ rows, ¬ IsBlankLine line ∧
      leadingBlanks line = indent := by
  simp [indentations, and_assoc]

theorem min?_cons_cons_of_le {least other : Nat} (le : least ≤ other) (more : List Nat) :
    (least :: other :: more).min? = (least :: more).min? := by
  rw [List.min?_cons', List.min?_cons', List.foldl_cons, Nat.min_eq_left le]

theorem min?_zero_cons (more : List Nat) : (0 :: more).min? = some 0 :=
  List.min?_eq_some_iff.mpr ⟨List.mem_cons_self .., fun _ _ => Nat.zero_le _⟩

theorem smallestIndentation_eq (found : Option Nat) (rows : List (List Char)) :
    smallestIndentation found rows = (found.toList ++ indentations rows).min? := by
  induction rows generalizing found with
  | nil => cases found <;> simp [smallestIndentation, indentations]
  | cons row rows induction =>
      rw [smallestIndentation]
      split
      next blank =>
        have same : indentations (row :: rows) = indentations rows := by
          simp [indentations, isBlank_iff.mp blank]
        rw [induction, same]
      next shown =>
        have more : indentations (row :: rows) =
            indentation row :: indentations rows := by
          simp [indentations, isBlank_iff.not.mp shown, indentation_eq]
        rw [more]
        split
        next smaller =>
          have front : (found.toList ++ indentation row :: indentations rows).min? =
              (indentation row :: indentations rows).min? := by
            cases found with
            | none => rfl
            | some value =>
                have lt : indentation row < value := by simpa using smaller
                change (value :: indentation row :: indentations rows).min? = _
                rw [List.min?_cons', List.min?_cons', List.foldl_cons,
                  Nat.min_eq_right (Nat.le_of_lt lt)]
          rw [front]
          split
          next zero => rw [zero, min?_zero_cons]
          next => exact induction _
        next larger =>
          cases found with
          | none => exact absurd rfl larger
          | some value =>
              have le : value ≤ indentation row := by simpa using larger
              rw [induction]
              exact (min?_cons_cons_of_le le _).symm

theorem removeCommonIndentation_eq (rows : List (List Char)) :
    removeCommonIndentation rows = rows.map (·.drop (leastIndentation rows)) := by
  rw [removeCommonIndentation, smallestIndentation_eq, leastIndentation,
    Option.toList_none, List.nil_append]

theorem leastIndentation_le (member : line ∈ rows) (shown : ¬ IsBlankLine line) :
    leastIndentation rows ≤ leadingBlanks line := by
  have inside : leadingBlanks line ∈ indentations rows :=
    mem_indentations.mpr ⟨line, member, shown, rfl⟩
  rw [leastIndentation]
  cases least : (indentations rows).min? with
  | none => exact Nat.zero_le _
  | some value => exact (List.min?_eq_some_iff.mp least).2 _ inside

/-- Where some line is not blank, there is no common indentation just if one
of these has none. -/
theorem leastIndentation_eq_zero (member : line ∈ rows) (shown : ¬ IsBlankLine line) :
    leastIndentation rows = 0 ↔ ∃ line ∈ rows, ¬ IsBlankLine line ∧
      leadingBlanks line = 0 := by
  constructor
  · intro zero
    have nonempty : indentations rows ≠ [] :=
      List.ne_nil_of_mem (mem_indentations.mpr ⟨line, member, shown, rfl⟩)
    obtain ⟨least, isLeast⟩ :=
      Option.ne_none_iff_exists'.mp (mt List.min?_eq_none_iff.mp nonempty)
    rw [leastIndentation, isLeast, Option.getD_some] at zero
    exact mem_indentations.mp (zero ▸ (List.min?_eq_some_iff.mp isLeast).1)
  · rintro ⟨line, member, shown, zero⟩
    exact Nat.le_zero.mp (zero ▸ leastIndentation_le member shown)

/-! ## Bytes -/

theorem byteSize_take (member : line ∈ rows) :
    byteSize (line.take (leastIndentation rows)) =
      min (leastIndentation rows) (byteSize line) := by
  have le_size := length_le_byteSize line
  by_cases blank : IsBlankLine line
  · rw [byteSize_eq_length fun char inside => blank char (List.mem_of_mem_take inside),
      List.length_take, byteSize_eq_length blank]
  · have le := leastIndentation_le member blank
    rw [← indentation_eq, indentation] at le
    have le_length : (line.takeWhile isBlankChar).length ≤ line.length :=
      (List.takeWhile_sublist _).length_le
    have blanks : IsBlankLine (line.take (leastIndentation rows)) := by
      intro char inside
      have short : line.take (leastIndentation rows) <+: line.takeWhile isBlankChar :=
        List.prefix_of_prefix_length_le (List.take_prefix _ _)
          (List.takeWhile_prefix _) <| by
            rw [List.length_take]
            exact Nat.le_trans (Nat.min_le_left ..) le
      exact isBlankChar_iff.mp (List.mem_takeWhile_imp (short.subset inside))
    rw [byteSize_eq_length blanks, List.length_take]
    omega

/-- A cut at some byte offset of the line is not inside a character, and leaves what is
behind the given number of characters. -/
structure IsCutAt (line : List Char) (size count : Nat) : Prop where
  le_size : size ≤ byteSize line
  front : takeBytes size line = (line.take count, true)
  behind : dropBytes size line = line.drop count

theorem isCutAt_leastIndentation (member : line ∈ rows) :
    IsCutAt line (min (leastIndentation rows) (byteSize line))
      (leastIndentation rows) := by
  have whole := List.take_append_drop (leastIndentation rows) line
  have front := takeBytes_byteSize_append (line.take (leastIndentation rows))
    (line.drop (leastIndentation rows))
  have behind := dropBytes_byteSize_append (line.take (leastIndentation rows))
    (line.drop (leastIndentation rows))
  rw [whole, byteSize_take member] at front behind
  exact ⟨Nat.min_le_right .., front, behind⟩

/-! ## Blank lines at the ends -/

/-- Neither the first nor the last line is blank. -/
structure IsTrimmed (rows : List (List Char)) : Prop where
  first : ∃ line ∈ rows.head?, ¬ IsBlankLine line
  last : ∃ line ∈ rows.getLast?, ¬ IsBlankLine line

theorem isBlank_eq : isBlank = fun line => decide (IsBlankLine line) :=
  funext fun _ => Bool.eq_iff_iff.mpr (isBlank_iff.trans decide_eq_true_iff.symm)

theorem findIdx?_blank_append {front : List (List Char)}
    (blank : ∀ line ∈ front, isBlank line = true)
    (rows : List (List Char)) : (front ++ rows).findIdx? (!isBlank ·) =
      (rows.findIdx? (!isBlank ·)).map (· + front.length) := by
  have unseen : front.findIdx? (!isBlank ·) = none := by simpa using blank
  rw [List.findIdx?_append, unseen, Option.none_or]

theorem IsTrimmed.findIdx? (trimmed : IsTrimmed rows) (behind : List (List Char)) :
    (rows ++ behind).findIdx? (!isBlank ·) = some 0 := by
  obtain ⟨first, isFirst, shown⟩ := trimmed.first
  obtain ⟨rest, rfl⟩ := List.head?_eq_some_iff.mp isFirst
  rw [List.cons_append, List.findIdx?_cons, isBlank_eq_false_iff.mpr shown]
  rfl

theorem IsTrimmed.reverse (trimmed : IsTrimmed rows) : IsTrimmed rows.reverse :=
  ⟨by simpa using trimmed.last, by simpa using trimmed.first⟩

theorem IsTrimmed.trimBlankLines_append {front behind : List (List Char)}
    (trimmed : IsTrimmed rows)
    (before : ∀ line ∈ front, isBlank line = true)
    (after : ∀ line ∈ behind, isBlank line = true) :
    trimBlankLines (front ++ rows ++ behind) = rows := by
  obtain ⟨shown, isFirst, _⟩ := trimmed.first
  obtain ⟨rest, rfl⟩ := List.head?_eq_some_iff.mp isFirst
  have first :
      (front ++ shown :: rest ++ behind).findIdx? (!isBlank ·) = some front.length := by
    rw [List.append_assoc, findIdx?_blank_append before, trimmed.findIdx?,
      Option.map_some, Nat.zero_add]
  have last : lastShown? (front ++ shown :: rest ++ behind) =
      some (front.length + rest.length) := by
    rw [lastShown?, List.reverse_append, List.reverse_append,
      findIdx?_blank_append fun line member => after line (List.mem_reverse.mp member),
      trimmed.reverse.findIdx?, Option.map_some, Option.map_some]
    simp only [List.length_append, List.length_reverse, List.length_cons,
      Option.some.injEq]
    omega
  have stop : max (front.length + rest.length + 1) front.length =
      (front ++ shown :: rest).length := by
    rw [List.length_append, List.length_cons]
    omega
  unfold trimBlankLines
  rw [first, last]
  simp only [Option.getD_some, Option.elim_some, stop, List.take_left, List.drop_left]

theorem trimBlankLines_of_blank (blank : ∀ line ∈ rows, isBlank line = true) :
    trimBlankLines rows = [] := by
  have unseen : rows.findIdx? (!isBlank ·) = none := by simpa using blank
  have unseen' : rows.reverse.findIdx? (!isBlank ·) = none := by simpa using blank
  unfold trimBlankLines lastShown?
  rw [unseen, unseen']
  simp

theorem isTrimmed_of_ne_nil
    (nonempty : (rows.dropWhile isBlank).rdropWhile isBlank ≠ []) :
    IsTrimmed ((rows.dropWhile isBlank).rdropWhile isBlank) := by
  have isPrefix :
      (rows.dropWhile isBlank).rdropWhile isBlank <+: rows.dropWhile isBlank :=
    List.rdropWhile_prefix isBlank _
  refine ⟨⟨_, List.head?_eq_some_head nonempty, isBlank_eq_false_iff.mp ?_⟩,
    ⟨_, List.getLast?_eq_some_getLast nonempty, isBlank_iff.not.mp ?_⟩⟩
  · rw [isPrefix.head nonempty]
    exact List.head_dropWhile_not isBlank _
  · exact List.rdropWhile_last_not isBlank _ nonempty

/-- What is cut out between the first and the last line that is not blank is what is left
if blank lines are dropped from both ends. -/
theorem trimBlankLines_eq (rows : List (List Char)) :
    trimBlankLines rows = (rows.dropWhile isBlank).rdropWhile isBlank := by
  have split : rows.takeWhile isBlank ++ (rows.dropWhile isBlank).rdropWhile isBlank ++
      (rows.dropWhile isBlank).rtakeWhile isBlank = rows := by
    rw [List.append_assoc, List.rdropWhile_append_rtakeWhile,
      List.takeWhile_append_dropWhile]
  have before : ∀ line ∈ rows.takeWhile isBlank, isBlank line = true :=
    fun _ => List.mem_takeWhile_imp
  have after :
      ∀ line ∈ (rows.dropWhile isBlank).rtakeWhile isBlank, isBlank line = true :=
    fun _ => List.mem_rtakeWhile_imp
  by_cases nothing : (rows.dropWhile isBlank).rdropWhile isBlank = []
  · rw [nothing, List.append_nil] at split
    rw [nothing]
    refine trimBlankLines_of_blank ?_
    rw [← split]
    exact List.forall_mem_append.mpr ⟨before, after⟩
  · have cut := (isTrimmed_of_ne_nil nothing).trimBlankLines_append before after
    rwa [split] at cut

theorem trimBlankLines_sublist (rows : List (List Char)) :
    (trimBlankLines rows).Sublist rows := by
  rw [trimBlankLines_eq]
  exact (List.rdropWhile_prefix isBlank _).sublist.trans (List.dropWhile_sublist isBlank)

theorem IsTrimmed.trimBlankLines_eq (trimmed : IsTrimmed rows) :
    trimBlankLines rows = rows := by
  have cut := trimmed.trimBlankLines_append (List.forall_mem_nil _)
    (List.forall_mem_nil _)
  rwa [List.nil_append, List.append_nil] at cut

theorem isTrimmed_trimBlankLines (nonempty : trimBlankLines rows ≠ []) :
    IsTrimmed (trimBlankLines rows) := by
  rw [Text.trimBlankLines_eq] at nonempty ⊢
  exact isTrimmed_of_ne_nil nonempty

/-! ## The value of a block string -/

/-- The value of a block string by the plain rule -/
def blockStringValue (raw : List Char) : List Char :=
  match (withLineFeeds raw).splitOn '\n' with
  | [] => []
  | first :: rest =>
      let unindented := first :: rest.map (·.drop (leastIndentation rest))
      ['\n'].intercalate
        ((unindented.dropWhile (IsBlankLine ·)).rdropWhile (IsBlankLine ·))

theorem dedent_eq (raw : List Char) : dedent raw = blockStringValue raw := by
  rw [dedent, blockStringValue, ← lines_eq_splitOn]
  cases lines raw with
  | nil => rfl
  | cons first rest =>
      dsimp only
      rw [removeCommonIndentation_eq, trimBlankLines_eq, isBlank_eq, joinLines]

/-- The value is that of the plain rule, and lines can be cut at the byte that follows
their common indentation. -/
theorem dedentString_eq (raw : String) :
    dedentString raw = String.ofList (blockStringValue raw.toList) ∧
      ∀ line ∈ (lines raw.toList).tail,
        IsCutAt line (min (leastIndentation (lines raw.toList).tail) (byteSize line))
          (leastIndentation (lines raw.toList).tail) :=
  ⟨congrArg String.ofList (dedent_eq raw.toList), fun _ member =>
    isCutAt_leastIndentation member⟩

/-! ## Texts without layout -/

/-- LF alone ends the lines of the text, and neither the first nor the last
of them is blank. -/
structure IsDedented (text : List Char) : Prop where
  noReturn : '\r' ∉ text
  trimmed : IsTrimmed (lines text)

def valueLines (first : List Char) (rest : List (List Char)) : List (List Char) :=
  trimBlankLines (first :: rest.map (·.drop (leastIndentation rest)))

theorem exists_dedent_eq (raw : List Char) :
    ∃ first rest, lines raw = first :: rest ∧
      dedent raw = joinLines (valueLines first rest) := by
  obtain ⟨first, rest, equal⟩ := List.exists_cons_of_ne_nil (lines_ne_nil raw)
  exact ⟨first, rest, equal, by
    rw [dedent, equal, valueLines, ← removeCommonIndentation_eq]⟩

section

variable {raw first : List Char} {rest : List (List Char)}

theorem oneLine_of_mem_valueLines (equal : lines raw = first :: rest) :
    ∀ row ∈ valueLines first rest, ∀ char ∈ row, isLineEnd char = false := by
  intro row member char inside
  have each : ∀ line ∈ first :: rest, ∀ char ∈ line, isLineEnd char = false :=
    equal ▸ fun line member => oneLine_of_mem_lines member
  rcases List.mem_cons.mp ((trimBlankLines_sublist _).subset member) with rfl | member
  · exact each row (List.mem_cons_self ..) char inside
  · obtain ⟨line, among, rfl⟩ := List.mem_map.mp member
    exact each line (List.mem_cons_of_mem _ among) char (List.mem_of_mem_drop inside)

theorem lines_dedent (equal : lines raw = first :: rest) (present : dedent raw ≠ []) :
    valueLines first rest ≠ [] ∧ lines (dedent raw) = valueLines first rest := by
  obtain ⟨_, _, same, value⟩ := exists_dedent_eq raw
  obtain ⟨rfl, rfl⟩ := List.cons.inj (equal.symm.trans same)
  have nonempty : valueLines first rest ≠ [] := by
    intro nothing
    rw [value, nothing] at present
    exact present rfl
  exact ⟨nonempty, by
    rw [value, lines_joinLines nonempty (oneLine_of_mem_valueLines equal)]⟩

end

theorem isDedented_dedent {raw : List Char} (present : dedent raw ≠ []) :
    IsDedented (dedent raw) := by
  obtain ⟨first, rest, equal, value⟩ := exists_dedent_eq raw
  obtain ⟨nonempty, left⟩ := lines_dedent equal present
  refine ⟨?_, left ▸ isTrimmed_trimBlankLines nonempty⟩
  rw [value]
  exact noReturn_joinLines (oneLine_of_mem_valueLines equal)

/-- The text is on one line, or has a line behind the first that is not
blank and not indented. -/
def IsFlush (text : List Char) : Prop :=
  (lines text).length = 1 ∨
    ∃ line ∈ (lines text).tail, ¬ IsBlankLine line ∧ leadingBlanks line = 0

theorem dedent_eq_self (dedented : IsDedented text) (flush : IsFlush text) :
    dedent text = text := by
  obtain ⟨first, rest, equal, value⟩ := exists_dedent_eq text
  have unindented : rest.map (·.drop (leastIndentation rest)) = rest := by
    rcases flush with single | ⟨line, member, shown, zero⟩
    · rw [equal] at single
      obtain rfl : rest = [] := by simpa using single
      rfl
    · rw [equal, List.tail_cons] at member
      rw [(leastIndentation_eq_zero member shown).mpr ⟨line, member, shown, zero⟩]
      simp
  rw [value, valueLines, unindented, ← equal, dedented.trimmed.trimBlankLines_eq,
    joinLines_lines dedented.noReturn]

/-- If nothing is removed from the last line, there is no common indentation. -/
theorem isFlush_of_dedent_eq (present : text ≠ []) (same : dedent text = text) :
    IsFlush text := by
  obtain ⟨first, rest, equal⟩ := List.exists_cons_of_ne_nil (lines_ne_nil text)
  have trimmed := (isDedented_dedent (same.symm ▸ present)).trimmed
  have left := (lines_dedent equal (same.symm ▸ present)).2
  rw [same, equal] at left trimmed
  -- As many lines are left, so that none has been dropped.
  have length : (valueLines first rest).length =
      (first :: rest.map (·.drop (leastIndentation rest))).length := by
    rw [← left]
    simp
  have unindented : first :: rest = first :: rest.map (·.drop (leastIndentation rest)) :=
    left.trans ((trimBlankLines_sublist _).eq_of_length length)
  have kept : ∀ line ∈ rest, line.drop (leastIndentation rest) = line := by
    refine List.map_inj_left.mp ?_
    rw [List.map_id', ← (List.cons.inj unindented).2]
  obtain ⟨last, isLast, shown⟩ := trimmed.last
  rw [IsFlush, equal]
  cases rest with
  | nil => exact .inl rfl
  | cons second rest =>
      rw [List.getLast?_cons_cons] at isLast
      have member := List.mem_of_getLast? isLast
      have nonempty : last ≠ [] := by
        rintro rfl
        exact shown (List.forall_mem_nil _)
      have zero : leastIndentation (second :: rest) = 0 := by
        have length := congrArg List.length (kept last member)
        have positive := List.length_pos_iff.mpr nonempty
        rw [List.length_drop] at length
        omega
      exact .inr ((leastIndentation_eq_zero member shown).mp zero)

/-- The texts that are their own values are the empty one and those without layout. Every
value but the empty one begins and ends with lines that are not blank. -/
theorem dedentString_eq_self_iff :
    (∀ text : String, dedentString text = text ↔
      text = "" ∨ IsDedented text.toList ∧ IsFlush text.toList) ∧
    ∀ raw : String, '\r' ∉ (dedentString raw).toList ∧
      (dedentString raw = "" ∨ IsTrimmed (lines (dedentString raw).toList)) := by
  have toList : ∀ raw, (dedentString raw).toList = dedent raw.toList :=
    fun _ => String.toList_ofList
  have empty : ∀ text : String, text = "" ↔ text.toList = [] :=
    fun text => String.toList_eq_nil_iff.symm
  refine ⟨fun text => ?_, fun raw => ?_⟩
  · rw [← String.toList_inj, toList, empty]
    constructor
    · intro same
      by_cases nothing : text.toList = []
      · exact .inl nothing
      · exact .inr ⟨same ▸ isDedented_dedent (same.symm ▸ nothing),
          isFlush_of_dedent_eq nothing same⟩
    · rintro (nothing | ⟨dedented, flush⟩)
      · rw [nothing]
        rfl
      · exact dedent_eq_self dedented flush
  · rw [empty, toList]
    by_cases nothing : dedent raw.toList = []
    · rw [nothing]
      exact ⟨nofun, .inl rfl⟩
    · obtain ⟨noReturn, trimmed⟩ := isDedented_dedent nothing
      exact ⟨noReturn, .inr trimmed⟩

/-- The first line of a value may have been the least indented one. -/
example : String.ofList (dedent "\na\n  b".toList) = "a\n  b" ∧
    String.ofList (dedent "a\n  b".toList) = "a\nb" := by
  decide

end GraphQL.Text
