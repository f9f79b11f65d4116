import GraphQL.Proofs.Lexing.Misread
import GraphQL.Proofs.Scanning.Block

/-! Tokens, scanned by byte offsets.

What is ignored in front of a token is passed, then the token is scanned as its first
character has it. What comes of it is the next token, with its place in the text. -/

namespace GraphQL.Scanning

open Text

/-- A token that has been scanned: what it says, where it begins and ends,
and its number -/
structure Entry where
  lexeme : Lexeme
  start : Nat
  stop : Nat
  line : Nat
  column : Nat
  index : Nat
  deriving DecidableEq, Repr

def Entry.ofToken (token : Token) : Entry :=
  ⟨token.lexeme, token.start.offset, token.stop, token.line, token.column, token.index⟩

section

variable (text : List Char)

/-- Passes what may stand between tokens, and gives the offset behind it. -/
def skipIgnored : (rounds offset : Nat) → Scan Nat
  | 0, _ => throw .endless
  | rounds + 1, offset => do
      match ← charAt text offset with
      | none => return offset
      | some char =>
          if ['\ufeff', '\t', ' ', ','].contains char
            then skipIgnored rounds (offset + char.utf8Size)
          else if isLineEnd char then
            let next ← passLineEnd text char offset
            skipIgnored rounds next
          else return offset

def startsWith (start : List Char) (offset : Nat) : Checked Bool := do
  return start.isPrefixOf (← sliceFrom text offset)

def scanLexeme (char : Char) (offset : Nat) : Scan (Lexeme × Nat) := do
  match Punctuator.ofChar? char with
  | some mark => return (.punctuator mark, offset + 1)
  | none =>
      if char = '#' then scanComment text offset
      else if char = '.' then
        if ← startsWith text ['.', '.', '.'] offset
          then return (.punctuator .spread, offset + 3)
        else fault (faultOfChar char) offset
      else if char = '"' then
        if ← startsWith text tripleQuote offset then scanBlockString text offset
          else scanString text offset
      else if char == '-' || char.isDigit then scanNumber text offset
      else if isNameStart char then scanName text offset
      else fault (faultOfChar char) offset

def scanTokenAt (offset index : Nat) : Scan Entry := do
  match ← charAt text offset with
  | none =>
      let line := (← get).line
      let column ← columnAt text (byteSize text)
      return ⟨.endOfFile, byteSize text, byteSize text, line, column, index⟩
  | some char =>
      let line := (← get).line
      let column ← columnAt text offset
      let (lexeme, stop) ← scanLexeme text char offset
      return ⟨lexeme, offset, stop, line, column, index⟩

def scanToken (start index : Nat) : Scan Entry := do
  let offset ← skipIgnored text (byteSize text + 1) start
  scanTokenAt text offset index

end

variable {text passed rest : List Char} {mark : Mark} {char : Char}

/-! ## What is ignored -/

/-- All that is ignored in front of the next token has been passed. -/
structure EndsIgnored (text passed rest : List Char)
    (outcome : Checked Nat × Mark) : Prop where
  result : outcome.1 = .ok (byteSize (passed ++ rest.takeWhile isIgnored))
  reaches : Reaches text outcome.2 (passed ++ rest.takeWhile isIgnored)
    (rest.dropWhile isIgnored)

theorem EndsIgnored.of_passed {covered : List Char} {outcome : Checked Nat × Mark}
    (ends : EndsIgnored text (passed ++ covered) rest outcome)
    (ignored : ∀ char ∈ covered, isIgnored char = true) :
    EndsIgnored text passed (covered ++ rest) outcome := by
  obtain ⟨result, reaches⟩ := ends
  rw [List.append_assoc] at result reaches
  constructor
  · rw [List.takeWhile_append_of_pos ignored, result]
  · rw [List.takeWhile_append_of_pos ignored, List.dropWhile_append_of_pos ignored]
    exact reaches

theorem skipIgnored_ends {rounds : Nat} (reaches : Reaches text mark passed rest)
    (enough : byteSize rest < rounds) :
    EndsIgnored text passed rest
      (runAt mark (skipIgnored text rounds (byteSize passed))) := by
  induction rounds generalizing mark passed rest with
  | zero => cases enough
  | succ rounds induction =>
      rw [skipIgnored, charAt_eq reaches.found, runAt_ok_bind]
      cases rest with
      | nil => exact ⟨by simp, by simpa using reaches⟩
      | cons char rest =>
          have positive := char.utf8Size_pos
          rw [byteSize_cons] at enough
          simp only [List.head?_cons]
          split
          next isBlank =>
            have member : char ∈ ['\ufeff', '\t', ' ', ','] := List.elem_iff.mp isBlank
            have oneLine : isLineEnd char = false ∧ isIgnored char = true := by
              simp only [List.mem_cons, List.not_mem_nil, or_false] at member
              rcases member with rfl | rfl | rfl | rfl <;> decide
            have reaches' : Reaches text mark (passed ++ [char]) rest :=
              Reaches.append reaches (List.forall_mem_singleton.mpr oneLine.1)
            have ends := induction reaches' (by omega)
            rw [byteSize_append] at ends
            exact ends.of_passed (List.forall_mem_singleton.mpr oneLine.2)
          next notBlank =>
          split
          next isEnd =>
            obtain ⟨ending, rest', mark', split, isEnding, run, reaches'⟩ :=
              reaches.passLineEnd_eq isEnd
            have ignored : ∀ char ∈ ending, isIgnored char = true := by
              cases isEnding <;> exact List.all_eq_true.mp rfl
            have shorter := isEnding.shorter split
            rw [byteSize_cons] at shorter
            have ends := induction reaches' (by omega)
            rw [byteSize_append] at ends
            rw [runAt_bind, run, split]
            exact ends.of_passed ignored
          next notEnd =>
            have other : isIgnored char = false := by
              simp only [isIgnored, Bool.or_eq_false_iff, beq_eq_false_iff_ne]
              simp only [List.contains_eq_mem, List.mem_cons, List.not_mem_nil, or_false,
                decide_eq_true_eq, not_or] at notBlank
              simp_all
            constructor
            · simp [other]
            · simpa [other] using reaches

/-! ## Tokens -/

theorem readComment_oneLine (rest : List Char) :
    ∀ char ∈ (readComment rest).text, isLineEnd char = false := by
  refine List.forall_mem_cons.mpr ⟨rfl, fun char member => ?_⟩
  simpa using List.mem_takeWhile_imp member

theorem readString_oneLine {reading : Reading} (read : readString rest = .ok reading) :
    ∀ char ∈ reading.text, isLineEnd char = false := by
  unfold readString at read
  split at read
  next content quoted =>
    obtain ⟨pieces, _, same⟩ := exists_pieces_of_readQuoted quoted
    cases read
    rw [same]
    have inside : ∀ char ∈ pieces.flatMap StringPiece.text, isLineEnd char = false := by
      intro char member
      obtain ⟨piece, _, member⟩ := List.mem_flatMap.mp member
      exact piece.text_oneLine char member
    exact List.forall_mem_cons.mpr
      ⟨rfl, List.forall_mem_append.mpr ⟨inside, List.forall_mem_singleton.mpr rfl⟩⟩
  next => cases read

/-- The next token has been scanned, and the mark is where it ends. -/
structure EndsToken (text passed rest : List Char)
    (outcome : Checked (Lexeme × Nat) × Mark) : Prop where
  result : outcome.1 = placedToken (byteSize passed) (readToken rest)
  reaches : ∀ reading, readToken rest = .ok reading →
    Reaches text outcome.2 (passed ++ reading.text) reading.rest

theorem Reaches.endsToken (reaches : Reaches text mark passed (char :: rest))
    {scanned : Checked (Lexeme × Nat)}
    (result : scanned = placedToken (byteSize passed) (readToken (char :: rest)))
    (oneLine : ∀ reading, readToken (char :: rest) = .ok reading →
      ∀ char ∈ reading.text, isLineEnd char = false) :
    EndsToken text passed (char :: rest) (runAt mark (liftM scanned)) where
  result := result
  reaches reading read := by
    have whole := (readToken_stands (List.cons_ne_nil char rest) read).whole
    rw [whole] at reaches
    exact reaches.append (oneLine reading read)

theorem scanLexeme_of_other (other : char ∉ ['.', '"', '#'])
    (reaches : Reaches text mark passed (char :: rest)) :
    EndsToken text passed (char :: rest)
      (runAt mark (scanLexeme text char (byteSize passed))) := by
  have unfolded := readToken_of_other other rest
  simp only [List.mem_cons, List.not_mem_nil, or_false, not_or] at other
  unfold scanLexeme
  split
  next sign isSign =>
    rw [isSign] at unfolded
    have single : char.utf8Size = 1 ∧ isLineEnd char = false := by
      unfold Punctuator.ofChar? at isSign
      split at isSign
      all_goals first | exact ⟨rfl, rfl⟩ | cases isSign
    have scanned : .ok (.punctuator sign, byteSize passed + 1) =
        placedToken (byteSize passed) (readToken (char :: rest)) := by
      rw [unfolded, placedToken, placed_ok, byteSize_cons, single.1]
      rfl
    refine reaches.endsToken scanned fun reading read => ?_
    cases unfolded.symm.trans read
    exact List.forall_mem_singleton.mpr single.2
  next notSign =>
    rw [notSign] at unfolded
    simp only [other, if_false]
    split
    next isNumber =>
      replace unfolded := unfolded.trans (if_pos isNumber)
      refine reaches.endsToken ?_ fun reading read =>
        readNumber_oneLine (unfolded.symm.trans read)
      rw [unfolded, scanNumber_eq reaches.found]
    next notNumber =>
    split
    next isName =>
      replace unfolded := unfolded.trans ((if_neg notNumber).trans (if_pos isName))
      refine reaches.endsToken (by rw [unfolded, scanName_eq reaches.found])
        fun reading read => ?_
      cases unfolded.symm.trans read
      exact readName_oneLine _
    next notName =>
      replace unfolded := unfolded.trans ((if_neg notNumber).trans (if_neg notName))
      refine reaches.endsToken (by rw [unfolded]; rfl) fun reading read => ?_
      cases unfolded.symm.trans read

theorem startsWith_eq (reaches : Reaches text mark passed rest) (start : List Char) :
    startsWith text start (byteSize passed) = .ok (start.isPrefixOf rest) := by
  rw [startsWith, reaches.found]
  rfl

theorem readToken_dot (single : ∀ more, rest ≠ '.' :: '.' :: more) :
    readToken ('.' :: rest) = .error ⟨faultOfChar '.', []⟩ := by
  rw [readToken.eq_def]
  split
  next equal => cases equal
  next more equal =>
    cases equal
    exact (single more rfl).elim
  next equal => cases equal
  next equal => cases equal
  next equal => cases equal
  next equal =>
    cases equal
    rfl

theorem scanLexeme_of_dot (reaches : Reaches text mark passed ('.' :: rest)) :
    EndsToken text passed ('.' :: rest)
      (runAt mark (scanLexeme text '.' (byteSize passed))) := by
  change EndsToken text passed _
    (runAt mark (liftM (startsWith text ['.', '.', '.'] (byteSize passed)) >>= _))
  rw [startsWith_eq reaches, runAt_ok_bind]
  split
  next isSpread =>
    obtain ⟨more, equal⟩ := List.isPrefixOf_iff_prefix.mp isSpread
    cases equal
    have scanned : .ok (.punctuator .spread, byteSize passed + 3) =
        placedToken (byteSize passed) (readToken ('.' :: '.' :: '.' :: more)) := rfl
    refine reaches.endsToken scanned fun reading read => ?_
    cases read
    have oneLine : ∀ char ∈ ['.', '.', '.'], isLineEnd char = false := by simp [isLineEnd]
    exact oneLine
  next notSpread =>
    have single : ∀ more, rest ≠ '.' :: '.' :: more := by
      rintro more rfl
      exact notSpread rfl
    refine reaches.endsToken (by rw [readToken_dot single]; rfl) fun reading read => ?_
    cases (readToken_dot single).symm.trans read

theorem scanLexeme_of_quote (reaches : Reaches text mark passed ('"' :: rest)) :
    EndsToken text passed ('"' :: rest)
      (runAt mark (scanLexeme text '"' (byteSize passed))) := by
  change EndsToken text passed _
    (runAt mark (liftM (startsWith text tripleQuote (byteSize passed)) >>= _))
  rw [startsWith_eq reaches, runAt_ok_bind]
  split
  next isBlock =>
    obtain ⟨more, equal⟩ := List.isPrefixOf_iff_prefix.mp isBlock
    cases equal
    have reaches' : Reaches text mark passed (tripleQuote ++ more) := reaches
    obtain ⟨mark', result, behind⟩ := scanBlockString_eq reaches'
    rw [result]
    exact ⟨rfl, behind⟩
  next notBlock =>
    have single : ∀ more, rest ≠ '"' :: '"' :: more := by
      rintro more rfl
      exact notBlock rfl
    refine reaches.endsToken (by
      rw [readToken_string single, scanString_eq reaches.found]) fun reading read => ?_
    exact readString_oneLine ((readToken_string single).symm.trans read)

theorem scanLexeme_ends (reaches : Reaches text mark passed (char :: rest)) :
    EndsToken text passed (char :: rest)
      (runAt mark (scanLexeme text char (byteSize passed))) := by
  by_cases other : char ∉ ['.', '"', '#']
  · exact scanLexeme_of_other other reaches
  · simp only [List.mem_cons, List.not_mem_nil, or_false, Decidable.not_not] at other
    rcases other with rfl | rfl | rfl
    · exact scanLexeme_of_dot reaches
    · exact scanLexeme_of_quote reaches
    · refine reaches.endsToken (scanComment_eq reaches.found) fun reading read => ?_
      cases read
      exact readComment_oneLine rest

/-! ## The next token -/

def Entry.behind (before : List Char) (index : Nat) (reading : Reading) : Entry :=
  ⟨reading.lexeme, byteSize before, byteSize before + byteSize reading.text,
    (Location.origin.after before).line, (Location.origin.after before).column, index⟩

theorem scanTokenAt_eq {before : List Char} (reaches : Reaches text mark before rest)
    (index : Nat) : ∃ mark',
    runAt mark (scanTokenAt text (byteSize before) index) =
      (placed (byteSize before) (Entry.behind before index) (readToken rest), mark') ∧
    ∀ reading, readToken rest = .ok reading →
    Reaches text mark' (before ++ reading.text) reading.rest := by
  obtain ⟨mark', counted, reaches', _⟩ := reaches.columnAt_eq
  rw [scanTokenAt, charAt_eq reaches.found, runAt_ok_bind]
  cases rest with
  | nil =>
      have size : byteSize text = byteSize before := by
        rw [reaches.whole, List.append_nil]
      refine ⟨mark', ?_, ?_⟩
      · simp only [List.head?_nil, runAt_get_bind, size, reaches.tracks.line_eq]
        rw [runAt_bind, counted]
        rfl
      · rintro reading read
        cases read
        simpa using reaches'
  | cons char rest =>
      obtain ⟨result, behind⟩ := scanLexeme_ends reaches'
      generalize scanned : runAt mark' (scanLexeme text char (byteSize before)) =
        outcome at result behind
      obtain ⟨outcome, mark''⟩ := outcome
      cases result
      refine ⟨mark'', ?_, behind⟩
      simp only [List.head?_cons, runAt_get_bind, reaches.tracks.line_eq]
      rw [runAt_bind, counted]
      change runAt mark' (scanLexeme text char (byteSize before) >>= _) = _
      rw [runAt_bind, scanned]
      cases readToken (char :: rest) <;> rfl

variable {source : Source} {cursor : Cursor}

/-- What scanning the next token has come to: that token with its place, and the mark
where it ends, or the fault in front of which nothing can be scanned -/
structure ScansNext (source : Source) (cursor : Cursor)
    (outcome : Checked Entry × Mark) : Prop where
  fault : ∀ error, cursor.next = .error error → outcome.1 = .error (.fault error)
  token : ∀ token after, cursor.next = .ok (token, after) →
    outcome.1 = .ok (.ofToken token) ∧
    ∃ passed, token.stop = byteSize passed ∧ after.Located source passed ∧
    outcome.2.Tracks passed

theorem scanToken_scans (located : cursor.Located source passed)
    (tracks : mark.Tracks passed) :
    ScansNext source cursor
      (runAt mark (scanToken source.chars (byteSize passed) cursor.index)) := by
  have reaches : Reaches source.chars mark passed cursor.rest :=
    ⟨located.whole, tracks, located.uncut⟩
  have enough : byteSize cursor.rest < byteSize source.chars + 1 := by
    rw [located.whole, byteSize_append]
    omega
  have start : cursor.tokenStart =
      Position.origin.after (passed ++ cursor.rest.takeWhile isIgnored) := by
    have uncut := located.uncut
    rw [← List.takeWhile_append_dropWhile (p := isIgnored) (l := cursor.rest)] at uncut
    rw [Cursor.tokenStart, located.position, Position.after_append uncut.of_append]
  obtain ⟨skipped, reaches⟩ := skipIgnored_ends reaches enough
  rw [scanToken, runAt_bind]
  generalize runAt mark (skipIgnored _ _ _) = outcome at skipped reaches
  obtain ⟨outcome, mark⟩ := outcome
  cases skipped
  generalize passed ++ cursor.rest.takeWhile isIgnored = before at start reaches
  obtain ⟨mark', scanned, behind⟩ := scanTokenAt_eq reaches cursor.index
  change ScansNext source cursor
    (runAt mark (scanTokenAt source.chars (byteSize before) cursor.index))
  rw [scanned]
  constructor
  · intro error failed
    obtain ⟨misread, read, rfl⟩ := Cursor.next_eq_error.mp failed
    rw [read, start]
    simp [Position.after, Position.origin]
  · intro token after next
    obtain ⟨reading, read, rfl, rfl⟩ := Cursor.next_eq_ok.mp next
    have stop : cursor.tokenStart.after reading.text =
        Position.origin.after (before ++ reading.text) := by
      have uncut := reaches.uncut
      rw [Cursor.dropWhile_isIgnored_eq read] at uncut
      rw [start, Position.after_append uncut.of_append]
    have reaches' := behind reading read
    refine ⟨?_, before ++ reading.text, ?_, ⟨reaches'.whole, stop, reaches'.uncut⟩,
      reaches'.tracks⟩
    · rw [read, placed_ok]
      simp only [Entry.ofToken, Cursor.tokenOf, start, Token.line, Token.column]
      simp [Entry.behind, Position.after, Position.origin]
    · change (cursor.tokenStart.after reading.text).offset = _
      rw [stop]
      simp [Position.after, Position.origin]

end GraphQL.Scanning
