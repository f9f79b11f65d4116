import GraphQL.Proofs.Numbers.Float
import GraphQL.Proofs.Parsing.Entering

/-! Integer literals.

Where a value is read, an integer literal is taken for exactly the integer it denotes, or
it is refused. It is looked at only when the token behind it has been read. -/

namespace GraphQL

open ParseOptions (Note)

variable {source : Source} {tokens : List Token} {ending : Option LexicalError}
variable {literal : String}

/-! ## Literals of integers -/

theorem exists_denotes_of_mem_openings {text : List Char}
    (written : text ∈ Number.openings) :
    ∃ number, Denotes (String.ofList text) number := by
  obtain ⟨sign, isSign, integer, isInteger, rfl⟩ := written
  obtain ⟨digits, rfl⟩ :=
    Digits.exists_text (Number.isDigit_of_mem_integerPattern isInteger)
  have nonempty : digits ≠ [] := fun empty =>
    Number.ne_nil_of_mem_integerPattern isInteger (Digits.text_eq_nil_iff.mpr empty)
  obtain ⟨sign, rfl⟩ := Numeral.exists_sign isSign
  exact ⟨_, sign, digits, nonempty, String.toList_ofList, rfl⟩

theorem Cursor.exists_denotes {cursor after : Cursor} {token : Token}
    (read : cursor.next = .ok (token, after))
    (isInteger : token.lexeme = .integer literal) : ∃ number, Denotes literal number := by
  obtain ⟨number, isNumber, equal⟩ := Cursor.exists_heads read (by rw [isInteger]; rfl)
  rw [isInteger, Number.lexemeOf] at equal
  split at equal
  next => cases equal
  next unmarked =>
    cases equal
    obtain ⟨opening, isOpening, tail, isTail, rfl⟩ := Number.mem_pattern.mp isNumber
    rcases Number.exists_mark_of_mem_tails isTail with rfl | ⟨mark, more, rfl, isMark⟩
    · rw [List.append_nil]
      exact exists_denotes_of_mem_openings isOpening
    · exact (unmarked (Number.any_mark_iff.mpr ⟨mark, by simp, isMark⟩)).elim

/-! ## Tokens of a source -/

theorem Cursor.Yields.exists_next {cursor : Cursor}
    (yields : cursor.Yields tokens ending) :
    ∀ token ∈ tokens, ∃ cursor after : Cursor, cursor.next = .ok (token, after) := by
  induction yields with
  | fault => exact List.forall_mem_nil _
  | last next => exact List.forall_mem_singleton.mpr ⟨_, _, next⟩
  | more next _ _ induction => exact List.forall_mem_cons.mpr ⟨⟨_, _, next⟩, induction⟩

theorem Source.Yields.exists_denotes (yields : source.Yields tokens ending)
    {token : Token}
    (member : token ∈ tokens) (isInteger : token.lexeme = .integer literal) :
    ∃ number, Denotes literal number := by
  obtain ⟨rest, rfl, yields⟩ := yields
  rcases List.mem_cons.mp member with rfl | member
  · cases isInteger
  · obtain ⟨_, _, read⟩ := yields.exists_next token member
    exact Cursor.exists_denotes read isInteger

/-! ## Values -/

/-- Where an integer token stands, it is taken, and then it is seen what comes of it. -/
theorem value_of_integer (constness : Constness)
    (deeper : (part : Nonterminal) → Parser part.Tree)
    {lexer : Lexer} (current : lexer.current.lexeme = .integer literal) :
    (Grammar.value constness).run deeper lexer =
      match lexer.advance with
      | (.ok _, after) =>
          if Decimal.isInteger literal.toList && isInt32 (signedValue literal.toList) then
            (.ok (.int (signedValue literal.toList)
              ⟨lexer.current.ordinal, after.last.ordinal⟩), after)
          else (.error (.grammatical (.integerOutOfRange literal) after.last.ordinal),
            after)
      | (.error error, after) => (.error (.lexical error), after) := by
  have chosen : (Grammar.value constness).run deeper lexer =
      (Grammar.integerValue literal).run deeper lexer := by
    unfold Grammar.value
    rw [Rule.run_peek_current_bind, current]
  rw [chosen]
  exact Grammar.run_numberValue deeper lexer ..

/-- What comes of an integer literal where a value is read, for the value and for all that
is parsed, given what is read behind it -/
inductive IntegerSettled {α : Type} (source : Source) (token : Token) (literal : String)
    (value : Except Failure (Value Extent)) (parsed : Except Diagnostic α) :
    Except LexicalError Token → Prop
  /-- A fault of the source lies between the literal and the next token. -/
  | faultBehind {error : LexicalError} :
      tokenize source = .error error →
        (significant source.scanned).getLast? = some token →
      parsed = .error (.ofLexicalError source error) →
      IntegerSettled source token literal value parsed (.error error)
  | exact {number : ℤ} {next : Token} :
      Denotes literal number → -2 ^ 31 ≤ number → number ≤ 2 ^ 31 - 1 →
      value = .ok (.int number ⟨token.ordinal, token.ordinal⟩) →
      IntegerSettled source token literal value parsed (.ok next)
  | outOfRange {number : ℤ} {next : Token} :
      Denotes literal number → ¬ (-2 ^ 31 ≤ number ∧ number ≤ 2 ^ 31 - 1) →
      parsed = .error
        { message := "Int cannot represent non 32-bit signed integer value: " ++ literal
          kind := .invalidValue
          source := some source
          positions := [token.start.offset]
          cause := some (if number < 0 then "number too small to fit in target type"
            else "number too large to fit in target type") } →
      IntegerSettled source token literal value parsed (.ok next)

section

variable {Tree : Type → Type} {rule : Rule (Tree Extent)} {options : ParseOptions}
variable {left : Nat} {there : Lexer}
variable (map : (Extent → Note) → Tree Extent → Tree Note)

theorem integerSettled_of_enters {constness : Constness}
    (enters : Rule.Enters options.maxNestingDepth
      (Grammar.value constness) left there options.maxNestingDepth
      rule (.start source))
    (isInteger : there.current.lexeme = .integer literal) :
    IntegerSettled source there.current literal
      ((Grammar.value constness).runAt options.maxNestingDepth left there).1
      (readBy rule map options (.start source)).1 there.advance.1 := by
  obtain ⟨tokens, ending, yields⟩ := source.exists_yields
  obtain ⟨_, start, _⟩ := Lexer.moves_start yields
  obtain ⟨ahead, moves⟩ := enters.keeps (Lexer.lasts_moves yields) ⟨_, start⟩
  obtain ⟨number, denotes⟩ := yields.exists_denotes moves.current_mem isInteger
  have value :=
    value_of_integer constness (Parser.nonterminal options.maxNestingDepth left) isInteger
  obtain ⟨ahead', moves'⟩ := moves.call yields .advance
  obtain ⟨spells, signed⟩ := denotes_iff.mp denotes
  rw [spells, signed, Bool.true_and] at value
  change Lexer.Moves source tokens ending there.advance.2 ahead' at moves'
  rw [Rule.runAt]
  cases answer : there.advance with
  | mk next after =>
  rw [answer] at value moves'
  obtain ⟨unread, along, _⟩ := moves'.along
  cases next with
  | error error =>
      have failed : there.call .advance = (.error error, after) := answer
      have fails := moves.fails yields failed
      have reported := Rule.readBy_eq map options (enters.fails value)
      exact .faultBehind fails.atFault.1 fails.atFault.2 (along.source_eq ▸ reported)
  | ok next =>
      have last := moves.last_advance yields answer
      simp only [last] at value
      by_cases fits : isInt32 number = true
      · rw [if_pos fits] at value
        obtain ⟨least, greatest⟩ := isInt32_eq_true.mp fits
        exact .exact denotes least greatest (congrArg Prod.fst value)
      · rw [if_neg fits] at value
        have outside : ¬ (-2 ^ 31 ≤ number ∧ number ≤ 2 ^ 31 - 1) :=
          fun within => fits (isInt32_eq_true.mpr within)
        have nonzero : number ≠ 0 := by
          rintro rfl
          exact outside (by decide)
        have read : there.current ∈ after.tokens := last ▸ moves'.last_mem
        have found := moves'.getElem?_ordinal yields read moves.isSignificant
        refine .outOfRange denotes outside
          ((Rule.readBy_eq map options (enters.fails value)).trans ?_)
        change Except.error (Failure.diagnostic _ _ _ _) = _
        rw [Failure.diagnostic, List.getElem?_toArray, found, Option.getD_some,
          along.source_eq]
        simp only [← denotes.lt_zero_iff nonzero]
        rfl

end

/-! ## Sources -/

/-- Wherever reading the source by the rule comes to a value and finds an integer literal,
it is settled what comes of it. -/
def SettlesIntegers {α β : Type} (rule : Rule α) (source : Source)
    (options : ParseOptions) (parsed : Except Diagnostic β) : Prop :=
  ∀ (constness : Constness) (left : Nat) (there : Lexer) (literal : String),
    Rule.Enters options.maxNestingDepth
      (Grammar.value constness) left there options.maxNestingDepth
      rule (.start source) →
    there.current.lexeme = .integer literal →
    IntegerSettled source there.current literal
      ((Grammar.value constness).runAt options.maxNestingDepth left there).1 parsed
        there.advance.1

/-- In any value of a source, an integer literal is taken for the integer it
denotes if that fits in 32 bits, and else the source is refused for it, unless
there is a fault right behind the literal. -/
theorem integers_settled (source : Source) (options : ParseOptions) :
    SettlesIntegers Grammar.document source options (parse source options) ∧
      SettlesIntegers Grammar.valueAlone source options (parseValue source options) :=
  ⟨fun _ _ _ _ enters isInteger => integerSettled_of_enters Document.map enters isInteger,
    fun _ _ _ _ enters isInteger => integerSettled_of_enters Value.map enters isInteger⟩

theorem argument_settled : ∃ there, there.current.lexeme = .integer "-2147483649" ∧
    IntegerSettled { body := "\x7ba(b:-2147483649)\x7d" } there.current "-2147483649"
      ((Grammar.value .variable).runAt 3 2 there).1
        (parse { body := "\x7ba(b:-2147483649)\x7d" } ⟨false, 3⟩)
      there.advance.1 ∧
    ∃ next, there.advance.1 = .ok next := by
  have selected : Rule.Enters 3 (Grammar.value .variable) 2 _ 3 Grammar.document
      (.start { body := "\x7ba(b:-2147483649)\x7d" }) :=
    .located <| .second rfl <| .first <| .second rfl <| .first <| .located <|
      .second rfl <| .first <|
      .nested <| .located <| .first <| .second rfl <| .first <| .second rfl <| .located <|
        .second rfl <|
      .first <| .second rfl <| .second rfl <| .first <| .located <| .second rfl <|
        .second rfl <| .first .here
  exact ⟨_, rfl, (integers_settled _ ⟨false, 3⟩).1 _ _ _ _ selected rfl, _, rfl⟩

/-- A literal that is too large, and behind it the quotation mark of no string -/
theorem fault_behind_integer : ∃ there,
    Rule.Enters 3 (Grammar.value .variable) 3 there 3 Grammar.valueAlone
      (.start { body := "99999999999 '" }) ∧
      there.current.lexeme = .integer "99999999999" ∧ Denotes "99999999999" 99999999999 ∧
      (2 : ℤ) ^ 31 - 1 < 99999999999 ∧
      ¬ ∃ diagnostic, parseValue { body := "99999999999 '" } ⟨false, 3⟩ =
        .error diagnostic ∧
        diagnostic.kind = .invalidValue := by
  refine ⟨_, .second rfl (.first .here), rfl,
    ⟨.none, List.replicate 11 9, nofun, rfl, rfl⟩, by decide, ?_⟩
  rintro ⟨diagnostic, failed, kind⟩
  have failed' : parseValue { body := "99999999999 '" } ⟨false, 3⟩ = .error _ := rfl
  rw [failed'] at failed
  cases failed
  cases kind

end GraphQL
