import GraphQL.Proofs.Lexing.Calls
import GraphQL.Proofs.Lexing.Spelling

/-! The line and column that a token keeps are those found by walking to it again.

Reading counts lines and columns piece by piece: over what is ignored in front of a token,
then over the token. CR LF is one line end, so counting in pieces agrees with counting at
once only if no piece ends between the two. None does: what is ignored runs on as far as
it can, and no token ends in CR. -/

namespace GraphQL

open Text

/-! ## Walking in pieces -/

/-- No CR LF is cut in two where the second text follows the first. -/
def Uncut (first second : List Char) : Prop :=
  first.getLast? = some '\r' → second.head? ≠ some '\n'

variable {first second : List Char}

theorem uncut_nil (second : List Char) : Uncut [] second := nofun

theorem Uncut.of_append {more : List Char} (uncut : Uncut first (second ++ more)) :
    Uncut first second := by
  intro last begins
  apply uncut last
  rw [List.head?_append, begins, Option.some_or]

theorem Uncut.append {more : List Char} (uncut : Uncut first (second ++ more))
    (ends : second.getLast? ≠ some '\r') : Uncut (first ++ second) more := by
  intro last
  rw [List.getLast?_append] at last
  cases ended : second.getLast? with
  | some char =>
      rw [ended, Option.some_or] at last
      exact absurd (ended.trans last) ends
  | none =>
      rw [ended, Option.none_or] at last
      cases List.getLast?_eq_none_iff.mp ended
      exact uncut last

theorem Uncut.of_cons {char : Char} (uncut : Uncut (char :: first) second) :
    Uncut first second := by
  intro last
  refine uncut ?_
  rw [List.getLast?_cons, last, Option.getD_some]

theorem Uncut.alone {char : Char} (uncut : Uncut (char :: first) second)
    (alone : ∀ rest, char = '\r' → first ≠ '\n' :: rest) (rest : List Char)
    (isReturn : char = '\r') :
    first ++ second ≠ '\n' :: rest := by
  intro equal
  cases first with
  | nil => exact uncut (congrArg some isReturn) (congrArg List.head? equal)
  | cons next first =>
      cases equal
      exact alone first isReturn rfl

theorem Text.length_consFirst {more : List (List Char)} (nonempty : more ≠ [])
    (char : Char) :
    (consFirst char more).length = more.length := by
  cases more with
  | nil => exact (nonempty rfl).elim
  | cons line more => rfl

namespace Location

theorem after_cons {char : Char} {rest : List Char}
    (alone : ∀ more, char = '\r' → rest ≠ '\n' :: more)
    (location : Location) : location.after (char :: rest) =
      if isLineEnd char then location.nextLine.after rest
      else after ⟨location.line, location.column + 1⟩ rest := by
  rw [after.eq_def]
  split
  next equal => cases equal
  next more equal =>
    cases equal
    exact (alone more rfl rfl).elim
  next equal =>
    cases equal
    rfl

theorem after_append (uncut : Uncut first second) (location : Location) :
    location.after (first ++ second) = (location.after first).after second := by
  fun_induction after location first with
  | case1 => rfl
  | case2 location rest induction =>
      rw [List.cons_append, List.cons_append, after]
      exact induction uncut.of_cons.of_cons
  | case3 location char rest alone isEnd induction =>
      rw [List.cons_append, after_cons (uncut.alone alone), if_pos isEnd]
      exact induction uncut.of_cons
  | case4 location char rest alone notEnd induction =>
      rw [List.cons_append, after_cons (uncut.alone alone), if_neg notEnd]
      exact induction uncut.of_cons

@[simp] theorem line_nextLine (location : Location) :
    location.nextLine.line = location.line + 1 := rfl

@[simp] theorem column_nextLine (location : Location) :
    location.nextLine.column = 1 := rfl

theorem line_after (location : Location) (text : List Char) :
    (location.after text).line + 1 = location.line + (lines text).length := by
  fun_induction after location text with
  | case1 => rfl
  | case2 location rest induction =>
      rw [induction, lines, List.length_cons, line_nextLine, Nat.add_right_comm,
        Nat.add_assoc]
  | case3 location char rest alone isEnd induction =>
      rw [induction, lines, if_pos isEnd, List.length_cons, line_nextLine,
        Nat.add_right_comm, Nat.add_assoc]
      exact alone
  | case4 location char rest alone notEnd induction =>
      rw [induction, lines, if_neg notEnd, length_consFirst (lines_ne_nil rest)]
      exact alone

theorem column_after (location : Location) (text : List Char) :
    (location.after text).column =
      (if (lines text).length = 1 then location.column else 1) +
        ((lines text).getLastD []).length := by
  fun_induction after location text with
  | case1 => rfl
  | case2 location rest induction =>
      obtain ⟨line, more, equal⟩ := List.exists_cons_of_ne_nil (lines_ne_nil rest)
      simp [induction, lines, equal, List.getLast?_cons]
  | case3 location char rest alone isEnd induction =>
      obtain ⟨line, more, equal⟩ := List.exists_cons_of_ne_nil (lines_ne_nil rest)
      rw [induction, lines, if_pos isEnd]
      · simp [equal, List.getLast?_cons]
      · exact alone
  | case4 location char rest alone notEnd induction =>
      obtain ⟨line, more, equal⟩ := List.exists_cons_of_ne_nil (lines_ne_nil rest)
      rw [induction, lines, if_neg notEnd, equal, consFirst]
      · cases more with
        | nil => simp [Nat.add_assoc, Nat.add_comm 1]
        | cons next more => simp [List.getLast?_cons]
      · exact alone

end Location

theorem Position.after_append (uncut : Uncut first second) (position : Position) :
    position.after (first ++ second) = (position.after first).after second := by
  rw [Position.after, Position.after, Position.after, byteSize_append,
    Location.after_append uncut, Nat.add_assoc]

/-! ## How tokens end -/

namespace Number

def Cut.OneLine (cut : Cut) : Prop := ∀ char ∈ cut.text, isLineEnd char = false

variable {cut after : Cut}

theorem Cut.OneLine.push (oneLine : cut.OneLine) {char : Char}
    (other : isLineEnd char = false)
    (rest : List Char) : (cut.push char rest).OneLine := by
  intro inside member
  rcases List.mem_append.mp member with member | member
  · exact oneLine inside member
  · cases List.mem_singleton.mp member
    exact other

theorem not_isLineEnd_of_isDigit {char : Char} (isDigit : char.isDigit = true) :
    isLineEnd char = false :=
  not_isLineEnd (Char.isDigit ·) isDigit nofun nofun

theorem oneLine_sign (oneLine : cut.OneLine) : (sign cut).OneLine := by
  unfold sign
  split
  next => exact oneLine.push rfl _
  next => exact oneLine

theorem oneLine_digits (oneLine : cut.OneLine) (outcome : digits cut = .ok after) :
    after.OneLine := by
  unfold digits at outcome
  split at outcome
  next =>
    cases outcome
    intro char member
    rcases List.mem_append.mp member with member | member
    · exact oneLine char member
    · exact not_isLineEnd_of_isDigit (List.mem_takeWhile_imp member)
  next => cases outcome

theorem oneLine_integerPart (oneLine : cut.OneLine)
    (outcome : integerPart cut = .ok after) : after.OneLine := by
  unfold integerPart at outcome
  split at outcome
  next =>
    split at outcome
    next =>
      split at outcome
      next => cases outcome
      next =>
        cases outcome
        exact oneLine.push rfl _
    next =>
      cases outcome
      exact oneLine.push rfl _
  next => exact oneLine_digits oneLine outcome

theorem oneLine_fractionPart (oneLine : cut.OneLine)
    (outcome : fractionPart cut = .ok after) : after.OneLine := by
  unfold fractionPart at outcome
  split at outcome
  next => exact oneLine_digits (oneLine.push rfl _) outcome
  next =>
    cases outcome
    exact oneLine

theorem oneLine_exponentSign (oneLine : cut.OneLine) : (exponentSign cut).OneLine := by
  unfold exponentSign
  split
  next => exact oneLine.push rfl _
  next => exact oneLine.push rfl _
  next => exact oneLine

theorem oneLine_exponentPart (oneLine : cut.OneLine)
    (outcome : exponentPart cut = .ok after) : after.OneLine := by
  unfold exponentPart at outcome
  split at outcome
  next => exact oneLine_digits (oneLine_exponentSign (oneLine.push rfl _)) outcome
  next => exact oneLine_digits (oneLine_exponentSign (oneLine.push rfl _)) outcome
  next =>
    cases outcome
    exact oneLine

end Number

variable {text : List Char} {reading : Reading}

open Number in
theorem readNumber_oneLine (outcome : readNumber text = .ok reading) :
    ∀ char ∈ reading.text, isLineEnd char = false := by
  obtain ⟨integer, first, outcome⟩ := bind_eq_ok.mp outcome
  obtain ⟨fraction, second, outcome⟩ := bind_eq_ok.mp outcome
  obtain ⟨number, third, outcome⟩ := bind_eq_ok.mp outcome
  obtain ⟨whole, last, outcome⟩ := bind_eq_ok.mp outcome
  cases outcome
  obtain ⟨rfl, _⟩ := ended_eq_ok last
  have opening : (sign ⟨[], text⟩).OneLine := oneLine_sign nofun
  exact oneLine_exponentPart
    (oneLine_fractionPart (oneLine_integerPart opening first) second) third

theorem readName_oneLine (text : List Char) :
    ∀ char ∈ (readName text).text, isLineEnd char = false := by
  intro char member
  have continues : isNameContinue char = true := List.mem_takeWhile_imp member
  exact not_isLineEnd (isNameContinue ·) continues nofun nofun

theorem readToken_oneLine (read : readToken text = .ok reading)
    (isWord : reading.lexeme.isWord = true) :
    ∀ char ∈ reading.text, isLineEnd char = false := by
  rw [readToken.eq_def] at read
  split at read
  next => cases read; cases isWord
  next => cases read; cases isWord
  next =>
    unfold readBlockString at read
    split at read <;> cases read
    cases isWord
  next =>
    unfold readString at read
    split at read <;> cases read
    cases isWord
  next => cases read; cases isWord
  next =>
    split at read
    next => cases read; cases isWord
    next =>
    split at read
    next => exact readNumber_oneLine read
    next =>
    split at read
    next =>
      cases read
      exact readName_oneLine _
    next => cases read

theorem getLast?_ne_of_oneLine (oneLine : ∀ char ∈ text, isLineEnd char = false) :
    text.getLast? ≠ some '\r' := by
  intro last
  cases oneLine '\r' (List.mem_of_getLast? last)

/-- Any token but a name or a number is on one line or ends with a quote. -/
theorem Reading.Spelled.getLast?_ne (spelled : reading.Spelled)
    (other : reading.lexeme.isWord = false) :
    reading.text.getLast? ≠ some '\r' := by
  have isWritten := spelled.isWritten
  cases lexeme : reading.lexeme with
  | startOfFile | endOfFile =>
      rw [lexeme] at isWritten
      rw [show reading.text = [] from isWritten]
      exact nofun
  | punctuator mark =>
      rw [lexeme] at isWritten
      rw [show reading.text = mark.text.toList from isWritten]
      cases mark <;> decide
  | name | integer | float =>
      rw [lexeme] at other
      cases other
  | comment words =>
      rw [lexeme] at isWritten
      obtain ⟨text, oneLine⟩ := isWritten
      rw [text]
      exact getLast?_ne_of_oneLine (List.forall_mem_cons.mpr ⟨rfl, oneLine⟩)
  | string value =>
      rw [lexeme] at isWritten
      obtain ⟨inner, text⟩ := isWritten
      rw [text, List.getLast?_concat]
      decide
  | blockString value =>
      rw [lexeme] at isWritten
      obtain ⟨inner, text⟩ := isWritten
      rw [text, List.getLast?_append]
      exact nofun

theorem readToken_getLast?_ne (read : readToken text = .ok reading) :
    reading.text.getLast? ≠ some '\r' := by
  cases isWord : reading.lexeme.isWord with
  | false => exact (readToken_spelled read).getLast?_ne isWord
  | true => exact getLast?_ne_of_oneLine (readToken_oneLine read isWord)

/-! ## Reading on -/

namespace Cursor

variable {source : Source} {cursor after : Cursor} {token : Token}

/-- The cursor has come through the source, and has kept the place to which walking there
at once would lead. -/
structure Located (source : Source) (cursor : Cursor) (passed : List Char) : Prop where
  whole : source.chars = passed ++ cursor.rest
  position : cursor.position = Position.origin.after passed
  uncut : Uncut passed cursor.rest

theorem located_start (source : Source) : (start source).Located source [] :=
  ⟨rfl, rfl, uncut_nil _⟩

/-- Walking to the next token at once leads to where it begins. -/
theorem Located.tokenStart {passed : List Char} (located : cursor.Located source passed) :
    ∃ before, source.chars = before ++ cursor.rest.dropWhile isIgnored ∧
      cursor.tokenStart = Position.origin.after before ∧
      Uncut before (cursor.rest.dropWhile isIgnored) := by
  obtain ⟨whole, position, uncut⟩ := located
  have notLineFeed := dropWhile_stops isIgnored cursor.rest
  rw [← List.takeWhile_append_dropWhile (p := isIgnored) (l := cursor.rest)]
    at whole uncut
  refine ⟨passed ++ cursor.rest.takeWhile isIgnored, ?_, ?_, ?_⟩
  · rw [whole, List.append_assoc]
  · rw [Cursor.tokenStart, position, Position.after_append uncut.of_append]
  · -- What is ignored takes the second half of CR LF along with the first.
    exact fun _ begins => absurd (notLineFeed '\n' begins) (by decide)

theorem Located.next {passed : List Char} (located : cursor.Located source passed)
    (next : cursor.next = .ok (token, after)) :
    (∃ before rest, source.chars = before ++ rest ∧
      token.start = Position.origin.after before) ∧
      ∃ passed', after.Located source passed' := by
  obtain ⟨reading, read, rfl, rfl⟩ := next_eq_ok.mp next
  obtain ⟨before, whole, start, uncut⟩ := located.tokenStart
  rw [dropWhile_isIgnored_eq read] at whole uncut
  refine ⟨⟨before, _, whole, start⟩, before ++ reading.text, ?_, ?_, ?_⟩
  · rw [whole, List.append_assoc]
    rfl
  · change cursor.tokenStart.after reading.text = _
    rw [start, Position.after_append uncut.of_append]
  · exact uncut.append (readToken_getLast?_ne read)

end Cursor

/-! ## Tokens in their places -/

/-- The token keeps the line and column that are found from its offset. They count the
lines in front of it, and the characters in front of it on the last of these. -/
structure Token.IsPlaced (source : Source) (token : Token) : Prop where
  line_eq : token.line = (source.locationAt token.start.offset).line
  column_eq : token.column = (source.locationAt token.start.offset).column
  counts : ∃ before rest, source.chars = before ++ rest ∧
    token.start.offset = byteSize before ∧
    token.line = (lines before).length ∧
    token.column = ((lines before).getLastD []).length + 1

variable {source : Source} {tokens : List Token} {ending : Option LexicalError}

theorem Source.locationAt_offset {position : Position} {before rest : List Char}
    (whole : source.chars = before ++ rest)
    (walked : position = Position.origin.after before) :
    source.locationAt position.offset = position.location := by
  subst walked
  rw [locationAt, Position.after, Position.origin, Nat.zero_add, whole,
    Location.ofOffset_byteSize]

theorem Token.isPlaced {token : Token} {before rest : List Char}
    (whole : source.chars = before ++ rest)
    (start : token.start = Position.origin.after before) : token.IsPlaced source := by
  have offset : token.start.offset = byteSize before := by
    rw [start, Position.after, Position.origin, Nat.zero_add]
  have found := Source.locationAt_offset whole start
  have location : token.start.location = Location.origin.after before := by
    rw [start]
    rfl
  refine ⟨by
    rw [found, Token.line], by
      rw [found, Token.column], before, rest, whole, offset, ?_, ?_⟩
  · have line := Location.origin.line_after before
    rw [Token.line, location]
    change _ = 1 + _ at line
    omega
  · rw [Token.column, location, Location.column_after, Nat.add_comm]
    exact congrArg _ (ite_self 1)

theorem Token.IsPlaced.locationAt_eq {token : Token} (placed : token.IsPlaced source) :
    source.locationAt token.start.offset = token.start.location :=
  Location.mk.injEq .. ▸ ⟨placed.line_eq.symm, placed.column_eq.symm⟩

theorem Cursor.Yields.isPlaced {cursor : Cursor} {passed : List Char}
    (yields : cursor.Yields tokens ending)
    (located : cursor.Located source passed) :
    ∀ token ∈ tokens, token.IsPlaced source := by
  induction yields generalizing passed with
  | fault => exact nofun
  | last next =>
      obtain ⟨⟨before, rest, whole, start⟩, _⟩ := located.next next
      exact List.forall_mem_singleton.mpr (Token.isPlaced whole start)
  | more next _ _ induction =>
      obtain ⟨⟨before, rest, whole, start⟩, passed', located'⟩ := located.next next
      exact List.forall_mem_cons.mpr ⟨Token.isPlaced whole start, induction located'⟩

theorem Source.Yields.isPlaced (yields : source.Yields tokens ending) :
    ∀ token ∈ tokens, token.IsPlaced source := by
  obtain ⟨rest, rfl, yields⟩ := yields
  have first : Token.startOfFile.IsPlaced source :=
    Token.isPlaced (List.nil_append _).symm rfl
  exact List.forall_mem_cons.mpr ⟨first, yields.isPlaced (Cursor.located_start source)⟩

/-- Tokens keep the lines and columns that a walk from the beginning finds,
all those of a source that can be read, and those that a lexer reads of any
source, however it is asked. -/
theorem isPlaced_of_scan (source : Source) (calls : List Lexer.Call) :
    (∀ tokens, tokenize source = .ok tokens → ∀ token ∈ tokens, token.IsPlaced source) ∧
      ∀ token ∈ ((Lexer.start source).run calls).tokens, token.IsPlaced source := by
  obtain ⟨tokens, ending, yields⟩ := source.exists_yields
  have placed := yields.isPlaced
  refine ⟨fun tokens' tokenized => (tokenize_eq_ok.mp tokenized).isPlaced,
    fun token member => ?_⟩
  obtain ⟨ahead, moves, _⟩ := Lexer.moves_start yields
  obtain ⟨ahead', moves'⟩ := moves.run yields calls
  have isPrefix := (moves'.sound yields).isPrefix
  rw [yields.scanned_eq] at isPrefix
  exact placed token (isPrefix.subset member)

theorem lineEnds_isPlaced :
    ∃ tokens, tokenize { body := "#é\ufeff\r\n\"\"\"\r\"\"\"\rb" } = .ok tokens ∧
      (∀ token ∈ tokens, token.IsPlaced { body := "#é\ufeff\r\n\"\"\"\r\"\"\"\rb" }) ∧
      tokens.map (fun token => (token.line, token.column)) =
        [(1, 1), (1, 1), (2, 1), (4, 1), (4, 2)] := by
  have tokenized : tokenize { body := "#é\ufeff\r\n\"\"\"\r\"\"\"\rb" } = .ok _ := rfl
  exact ⟨_, tokenized, (isPlaced_of_scan _ []).1 _ tokenized, rfl⟩

end GraphQL
