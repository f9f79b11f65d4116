import GraphQL.Proofs.Lexing.Cutting
import GraphQL.Proofs.Lexing.Misread
import GraphQL.Proofs.Numbers.Pattern

/-! Where a number is read, how far it goes, and where it cannot be read.

A number is read just where the text begins with one that no digit, point, letter or
underscore follows. If it cannot be, the error is at the first character with which the
text could no longer have begun so. -/

namespace GraphQL

open Text

namespace Number

/-- The text begins with a number that nothing behind it continues. -/
structure Heads (number text : List Char) : Prop where
  nonempty : number ≠ []
  isNumber : number ∈ pattern.matches'
  ends : ∃ rest, text = number ++ rest ∧
    ∀ char ∈ rest.head?, char.isDigit = false ∧ char ≠ '.' ∧
    char.isAlpha = false ∧ char ≠ '_'

/-- The text could still become one that begins with a number. -/
def IsViable (front : List Char) : Prop := ∃ more number, Heads number (front ++ more)

theorem IsViable.of_append {front more : List Char} :
    IsViable (front ++ more) → IsViable front := by
  rintro ⟨rest, number, heads⟩
  exact ⟨more ++ rest, number, by rwa [← List.append_assoc]⟩

/-! ## The two parts of a number -/

def openings : Language Char := signPattern.matches' * integerPattern.matches'

def tails : Language Char := fractionPattern.matches' * exponentPattern.matches'

variable {text number rest : List Char}

theorem mem_pattern :
    number ∈ pattern.matches' ↔
      ∃ opening ∈ openings, ∃ tail ∈ tails, opening ++ tail = number := by
  have split : pattern.matches' = openings * tails := by
    simp only [pattern, openings, tails, RegularExpression.matches'_mul, mul_assoc]
  rw [split, Language.mem_mul]

theorem ne_nil_of_mem_openings (written : text ∈ openings) : text ≠ [] := by
  obtain ⟨sign, _, integer, digits, rfl⟩ := written
  exact List.append_ne_nil_of_right_ne_nil _ (ne_nil_of_mem_integerPattern digits)

theorem Unless.mono {goesOn goesOn' : Char → Bool}
    (less : ∀ char, goesOn char = true → goesOn' char = true)
    (stops : Unless goesOn' rest) : Unless goesOn rest :=
  fun char first => Bool.eq_false_iff.mpr fun goes =>
    Bool.eq_false_iff.mp (stops char first) (less char goes)

theorem unless_digits {signs : List Char} (others : signs.all (!·.isDigit) = true)
    (written : text ∈ decimalDigits.matches') : Unless (signs.contains ·)
    (text ++ rest) := by
  obtain ⟨nonempty, all⟩ := mem_decimalDigits.mp written
  obtain ⟨char, more, rfl⟩ := List.exists_cons_of_ne_nil nonempty
  rintro _ ⟨⟩
  refine Bool.eq_false_iff.mpr fun isSign => ?_
  have notDigit := List.all_eq_true.mp others char (List.contains_iff_mem.mp isSign)
  rw [all char List.mem_cons_self] at notDigit
  cases notDigit

theorem recognizes_opening : Recognizes opening openings Char.isDigit := by
  have sign : Recognizes (fun cut => .ok (sign cut)) signPattern.matches'
      (['-'].contains ·) := by
    simpa [signPattern, perhaps] using optional_sign.recognizes recognizes_nothing
  refine sign.bind recognizes_integerPart ⟨['0'], mem_integerPattern.mpr (.inl rfl)⟩
    fun word written rest _ => ?_
  exact unless_digits rfl
    (mem_decimalDigits.mpr ⟨ne_nil_of_mem_integerPattern written,
      isDigit_of_mem_integerPattern written⟩)

theorem recognizes_exponent :
    Recognizes (fun cut => exponentPart cut >>=
      ended) exponentPattern.matches' runsOn := by
  have sign : Recognizes (fun cut => .ok (exponentSign cut))
      (perhaps (oneOf ['+', '-'])).matches'
      (['+', '-'].contains ·) := by
    simpa [perhaps] using optional_exponentSign.recognizes recognizes_nothing
  have digits := sign.bind recognizes_digits ⟨['0'], zero_mem_decimalDigits⟩
    fun word written rest _ =>
      unless_digits rfl written
  have part := (optional_exponentPart.recognizes digits).bind recognizes_ended ⟨[], rfl⟩
    fun word written rest stops => by
    obtain rfl : word = [] := written
    refine stops.mono fun char goesOn => ?_
    rcases Bool.or_eq_true_iff.mp goesOn with isMark | isDigit
    · simp at isMark
      rcases isMark with rfl | rfl <;> rfl
    · simp [runsOn, isDigit]
  rwa [mul_one, ← mul_assoc] at part

theorem recognizes_tail : Recognizes tail tails runsOn := by
  refine (optional_fractionPart.recognizes recognizes_digits).bind recognizes_exponent
    ⟨[], mem_perhaps.mpr (.inl rfl)⟩ fun word written rest stops => ?_
  rcases mem_exponentPattern.mp written with rfl | ⟨mark, member, _, _, _, _, rfl⟩
  · refine stops.mono fun char goesOn => ?_
    rcases Bool.or_eq_true_iff.mp goesOn with isPoint | isDigit
    · obtain rfl : char = '.' := by simpa using isPoint
      rfl
    · simp [runsOn, isDigit]
  · rintro _ ⟨⟩
    simp only [List.mem_cons, List.not_mem_nil, or_false] at member
    rcases member with rfl | rfl <;> rfl

/-! ## Reading a number -/

theorem runsOn_eq_false {char : Char} :
    runsOn char = false ↔ char.isDigit = false ∧ char ≠ '.' ∧ char.isAlpha = false ∧
      char ≠ '_' := by
  simp only [runsOn, isNameStart, Bool.or_eq_false_iff, beq_eq_false_iff_ne,
    and_comm (b := char.isAlpha = false)]

theorem tail_ends {cut after : Cut} (outcome : tail cut = .ok after) :
    ∀ char ∈ after.rest.head?, (char == '.' || isNameStart char) = false := by
  obtain ⟨_, _, outcome⟩ := bind_eq_ok.mp outcome
  obtain ⟨⟨text, rest⟩, _, outcome⟩ := bind_eq_ok.mp outcome
  rw [ended_eq] at outcome
  split at outcome
  next => cases outcome
  next missing =>
    cases outcome
    simpa using Option.filter_eq_none_iff.mp missing

theorem exists_mark_of_mem_tails (written : text ∈ tails) :
    text = [] ∨ ∃ char more, text = char :: more ∧ char ∈ ['.', 'e', 'E'] := by
  obtain ⟨fraction, isFraction, exponent, isExponent, rfl⟩ := written
  rcases mem_fractionPattern.mp isFraction with rfl | ⟨digits, _, rfl⟩
  · rcases mem_exponentPattern.mp isExponent with rfl | ⟨mark, member, _, _, _, _, rfl⟩
    · exact .inl rfl
    · exact .inr ⟨mark, _, rfl, List.mem_cons_of_mem _ member⟩
  · exact .inr ⟨'.', _, rfl, List.mem_cons_self⟩

theorem not_mark_of_mem_openings (written : text ∈ openings) :
    ∀ char ∈ text, char ∉ ['.', 'e', 'E'] := by
  obtain ⟨sign, isSign, integer, isInteger, rfl⟩ := written
  refine List.forall_mem_append.mpr ⟨?_, fun char member isMark => ?_⟩
  · rcases mem_signPattern.mp isSign with rfl | rfl <;> simp
  · have isDigit := isDigit_of_mem_integerPattern isInteger char member
    simp only [List.mem_cons, List.not_mem_nil, or_false] at isMark
    rcases isMark with rfl | rfl | rfl <;> cases isDigit

theorem unless_tails (written : text ∈ tails) (stops : Unless runsOn rest) :
    Unless Char.isDigit (text ++ rest) := by
  rcases exists_mark_of_mem_tails written with rfl | ⟨mark, more, rfl, isMark⟩
  · exact stops.mono fun char isDigit => by simp [runsOn, isDigit]
  · rintro _ ⟨⟩
    simp only [List.mem_cons, List.not_mem_nil, or_false] at isMark
    rcases isMark with rfl | rfl | rfl <;> rfl

theorem recognizes_whole :
    Recognizes (fun cut => opening cut >>= tail) (openings * tails) runsOn :=
  recognizes_opening.bind recognizes_tail
    ⟨[], [], mem_fractionPattern.mpr (.inl rfl), [],
      mem_exponentPattern.mpr (.inl rfl), rfl⟩
    fun _ written _ stops => unless_tails written stops

/-- What is said by a token that covers a number: one with a fraction or an
exponent is no integer. -/
def lexemeOf (number : List Char) : Lexeme :=
  if number.any ['.', 'e', 'E'].contains then .float (String.ofList number)
    else .integer (String.ofList number)

theorem any_mark_iff :
    number.any ['.', 'e', 'E'].contains = true ↔
      ∃ char ∈ number, char ∈ ['.', 'e', 'E'] := by
  simp only [List.any_eq_true, List.contains_iff_mem]

theorem Heads.readNumber_eq (heads : Heads number text) :
    ∃ rest, text = number ++ rest ∧
      readNumber text = .ok ⟨lexemeOf number, number, rest⟩ := by
  obtain ⟨_, isNumber, rest, rfl, ends⟩ := heads
  have stops : Unless runsOn rest :=
    fun char first => runsOn_eq_false.mpr (ends char first)
  obtain ⟨first, begins, last, isTail, rfl⟩ := mem_pattern.mp isNumber
  have opened : opening ⟨[], first ++ (last ++ rest)⟩ = .ok ⟨first, last ++ rest⟩ :=
    recognizes_opening.complete begins (unless_tails isTail stops)
  refine ⟨rest, rfl, ?_⟩
  rw [Number.readNumber_eq, List.append_assoc, opened]
  have closed : tail ⟨first, last ++ rest⟩ = .ok ⟨first ++ last, rest⟩ :=
    recognizes_tail.complete isTail stops
  refine bind_eq_ok.mpr ⟨_, rfl, bind_eq_ok.mpr ⟨_, closed, ?_⟩⟩
  -- The tail is empty just if the number has none of the marks that begin one.
  have kind : first ++ last = first ↔
      ¬ (first ++ last).any ['.', 'e', 'E'].contains = true := by
    rw [List.append_right_eq_self, any_mark_iff]
    rcases exists_mark_of_mem_tails isTail with rfl | ⟨mark, more, rfl, isMark⟩
    · simpa using not_mark_of_mem_openings begins
    · exact iff_of_false (List.cons_ne_nil _ _) fun missing =>
        missing ⟨mark, by simp, isMark⟩
  by_cases isFloat : (first ++ last).any ['.', 'e', 'E'].contains = true
  · rw [built, lexemeOf, if_pos isFloat, if_neg fun same => kind.mp same isFloat]
  · rw [built, lexemeOf, if_neg isFloat, if_pos (kind.mpr isFloat)]

theorem heads_of_readNumber {reading : Reading}
    (outcome : readNumber text = .ok reading) :
    Heads reading.text text := by
  have whole := (readNumber_covers outcome).1.whole
  have notWord := readNumber_ends outcome
  rw [Number.readNumber_eq] at outcome
  obtain ⟨integer, opened, outcome⟩ := bind_eq_ok.mp outcome
  obtain ⟨all, closed, outcome⟩ := bind_eq_ok.mp outcome
  cases outcome
  obtain ⟨first, begins, text'⟩ := recognizes_opening.sound opened
  obtain ⟨last, isTail, text''⟩ := recognizes_tail.sound closed
  have written : all.text = first ++ last := text''.trans (congrArg (· ++ last) text')
  have isNumber : all.text ∈ pattern.matches' :=
    mem_pattern.mpr ⟨first, begins, last, isTail, written.symm⟩
  refine ⟨?_, isNumber, _, whole, fun char next => runsOn_eq_false.mp ?_⟩
  · change all.text ≠ []
    rw [written]
    exact List.append_ne_nil_of_left_ne_nil (ne_nil_of_mem_openings begins) _
  · have notDigit : char.isDigit = false := by
      have notWord := notWord char next
      simp only [isNameContinue, Char.isAlphanum, Bool.or_eq_false_iff] at notWord
      exact notWord.2.2
    rw [runsOn, notDigit, tail_ends closed char next]
    rfl

theorem Heads.unique {number' : List Char} (heads : Heads number text)
    (heads' : Heads number' text) :
    number' = number := by
  obtain ⟨rest, _, outcome⟩ := heads.readNumber_eq
  obtain ⟨rest', _, outcome'⟩ := heads'.readNumber_eq
  rw [outcome, Except.ok.injEq, Reading.mk.injEq] at outcome'
  exact outcome'.2.1.symm

/-- Reading stops behind all that could still have become a number, and not before. -/
theorem readNumber_sticks {misread : Misread}
    (outcome : readNumber text = .error misread) :
    misread.text <+: text ∧
      ∀ front, front <+: text →
      (IsViable front ↔ front.length ≤ misread.text.length) := by
  obtain ⟨covered, rest, text', rfl, ⟨more, isNumber⟩, again⟩ :=
    recognizes_whole.sticks (readNumber_eq_error.mp outcome)
  obtain rfl : misread.text = covered := text'
  have viable : IsViable misread.text := by
    refine ⟨more, _, ?_, mem_pattern.mpr isNumber, [], (List.append_nil _).symm, nofun⟩
    obtain ⟨first, begins, last, _, equal⟩ := isNumber
    rw [← equal]
    exact List.append_ne_nil_of_left_ne_nil (ne_nil_of_mem_openings begins) _
  refine ⟨List.prefix_append .., fun front isPrefix => ?_⟩
  constructor
  · rintro ⟨behind, number, heads⟩
    refine Nat.not_lt.mp fun longer => ?_
    obtain ⟨between, rfl⟩ :=
      List.prefix_of_prefix_length_le (List.prefix_append ..) isPrefix
        (Nat.le_of_lt longer)
    obtain ⟨char, between, rfl⟩ : ∃ char more, between = char :: more :=
      List.exists_cons_of_ne_nil fun missing => by simp [missing] at longer
    obtain ⟨rest, rfl⟩ := (List.prefix_append_right_inj _).mp isPrefix
    -- With this character the number cannot be read any more, whatever follows.
    obtain ⟨_, outcome⟩ := again char rfl (between ++ behind)
    obtain ⟨_, _, outcome'⟩ := heads.readNumber_eq
    rw [List.append_assoc, List.cons_append, readNumber_eq_error.mpr outcome] at outcome'
    cases outcome'
  · intro short
    obtain ⟨more, equal⟩ :=
      List.prefix_of_prefix_length_le isPrefix (List.prefix_append ..) short
    exact .of_append (equal ▸ viable)

end Number

/-! ## Numbers in a source -/

open Number

variable {source : Source} {cursor : Cursor} {text number : List Char}

theorem readToken_eq_readNumber
    (begins : ∃ char ∈ text.head?, char = '-' ∨ char.isDigit = true) :
    readToken text = readNumber text := by
  obtain ⟨char, first, isNumber⟩ := begins
  obtain ⟨rest, rfl⟩ := List.head?_eq_some_iff.mp first
  have each : ['-', '0', '1', '2', '3', '4', '5', '6', '7', '8', '9'].all (fun char =>
      decide (char ∉ ['.', '"', '#'] ∧ Punctuator.ofChar? char = none ∧
        (char == '-' || char.isDigit) = true)) = true := by decide
  obtain ⟨other, notMark, starts⟩ := of_decide_eq_true
    (List.all_eq_true.mp each char
      (List.mem_cons.mpr (isNumber.imp_right isDigit_iff.mp)))
  rw [readToken_of_other other, notMark]
  exact if_pos starts

def Lexeme.isNumber : Lexeme → Bool
  | integer _ | float _ => true
  | _ => false

theorem readNumber_of_readToken {reading : Reading} (read : readToken text = .ok reading)
    (isNumber : reading.lexeme.isNumber = true) : readNumber text = .ok reading := by
  rcases readToken_of_isWord read (by
    cases lexeme : reading.lexeme <;> simp_all [Lexeme.isNumber, Lexeme.isWord])
    with outcome | ⟨_, rfl⟩
  · exact outcome
  · cases isNumber

theorem Cursor.exists_heads {token : Token} {after : Cursor}
    (next : cursor.next = .ok (token, after)) (isNumber : token.lexeme.isNumber = true) :
    ∃ number, number ∈ pattern.matches' ∧ token.lexeme = lexemeOf number := by
  obtain ⟨reading, read, rfl, _⟩ := Cursor.next_eq_ok.mp next
  have outcome := readNumber_of_readToken read isNumber
  have heads := heads_of_readNumber outcome
  obtain ⟨_, _, outcome'⟩ := heads.readNumber_eq
  rw [outcome] at outcome'
  exact ⟨reading.text, heads.isNumber, congrArg Reading.lexeme (Except.ok.inj outcome')⟩

/-- Wherever scanning meets a minus or a digit, a number is read just if the text
begins with one that nothing continues. There is at most one, and the token covers
it and says it. If there is none, the error is at the first character with which
no such number could begin any more. -/
theorem numbers_recognized (source : Source) (tokens : List Token) (cursor : Cursor)
    (text : List Char)
    (takes : (Cursor.start source).Takes tokens cursor)
    (ahead : cursor.rest.dropWhile isIgnored = text)
    (begins : ∃ char ∈ text.head?, char = '-' ∨ char.isDigit = true) :
    ∃ before, source.chars = before ++ text ∧
      ((∃ token after, cursor.next = .ok (token, after)) ↔ ∃ number, Heads number text) ∧
      (∀ number, Heads number text → (∀ number', Heads number' text → number' = number) ∧
        ∃ token after, cursor.next = .ok (token, after) ∧
          token.start.offset = byteSize before ∧
          token.stop = byteSize (before ++ number) ∧
          source.textOf token.span = String.ofList number ∧
          token.value = some (String.ofList number) ∧
          token.kind = if number.any ['.', 'e', 'E'].contains then .float else .integer) ∧
      ∀ error, cursor.next = .error error → tokenize source = .error error ∧
        ∃ covered, covered <+: text ∧ error.offset = byteSize (before ++ covered) ∧
          ∀ front, front <+: text → (IsViable front ↔ front.length ≤ covered.length) := by
  obtain ⟨passed, chars, offset⟩ := takes.into (Cursor.in_start source)
  have read : readToken (cursor.rest.dropWhile isIgnored) = readNumber text :=
    ahead.symm ▸ readToken_eq_readNumber begins
  refine ⟨passed ++ cursor.rest.takeWhile isIgnored, ?_, ⟨?_, ?_⟩,
    fun number heads => ⟨fun _ => heads.unique, ?_⟩, ?_⟩
  · rw [List.append_assoc, ← ahead, List.takeWhile_append_dropWhile, chars]
  · rintro ⟨token, after, next⟩
    obtain ⟨reading, outcome, _, _⟩ := Cursor.next_eq_ok.mp next
    exact ⟨reading.text, heads_of_readNumber (read.symm.trans outcome)⟩
  · rintro ⟨number, heads⟩
    obtain ⟨rest, _, outcome⟩ := heads.readNumber_eq
    exact ⟨_, _, Cursor.next_eq_ok.mpr ⟨_, read.trans outcome, rfl, rfl⟩⟩
  · obtain ⟨rest, whole, outcome⟩ := heads.readNumber_eq
    let reading : Reading := ⟨lexemeOf number, number, rest⟩
    have covered : cursor.rest.dropWhile isIgnored = reading.text ++ reading.rest :=
      ahead.trans whole
    have holds := Cursor.holds_tokenOf chars offset covered
    refine ⟨_, _, Cursor.next_eq_ok.mpr ⟨_, read.trans outcome, rfl, rfl⟩,
      holds.start, holds.stop, holds.textOf_eq, ?_⟩
    simp only [Token.value, Token.kind, Cursor.tokenOf, lexemeOf]
    split
    next => exact ⟨rfl, rfl⟩
    next => exact ⟨rfl, rfl⟩
  · intro error next
    have yields : source.Yields (.startOfFile :: (tokens ++ [])) _ :=
      ⟨_, rfl, takes.yields (.fault next)⟩
    obtain ⟨misread, outcome, rfl⟩ := Cursor.next_eq_error.mp next
    obtain ⟨isPrefix, longest⟩ := readNumber_sticks (read.symm.trans outcome)
    refine ⟨yields.tokenize_eq, misread.text, isPrefix, ?_, longest⟩
    simp [Cursor.tokenStart, Position.after, offset, Nat.add_assoc]

theorem float_recognized :
    (∃ number, Heads number ['-', '1', '.', '5', 'e', '3', ',', '0', '1']) ∧
      tokenize { body := "x -1.5e3,01" } = .error ⟨.digitAfterZero '1', 10⟩ ∧
        ∃ covered, covered <+: ['0', '1'] ∧
          ∀ front, front <+: ['0', '1'] →
          (IsViable front ↔ front.length ≤ covered.length) := by
  have name : (Cursor.start { body := "x -1.5e3,01" }).next = .ok (_, _) := rfl
  have takes : (Cursor.start { body := "x -1.5e3,01" }).Takes _ _ := .cons name rfl .nil
  have next : Cursor.next ⟨" -1.5e3,01".toList, ⟨1, ⟨1, 2⟩⟩, 2, 2⟩ = .ok (_, _) := rfl
  have takes' : (Cursor.start { body := "x -1.5e3,01" }).Takes _ _ :=
    takes.append (.cons next rfl .nil)
  obtain ⟨_, _, read, _, _⟩ := numbers_recognized _ _ _ _ takes rfl ⟨'-', rfl, .inl rfl⟩
  obtain ⟨_, _, _, _, fails⟩ := numbers_recognized _ _ _ _ takes' rfl ⟨'0', rfl, .inr rfl⟩
  obtain ⟨tokenized, covered, isPrefix, _, longest⟩ := fails ⟨.digitAfterZero '1', 10⟩ rfl
  exact ⟨read.mp ⟨_, _, next⟩, tokenized, covered, isPrefix, longest⟩

end GraphQL
