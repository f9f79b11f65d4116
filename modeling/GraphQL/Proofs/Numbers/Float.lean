import GraphQL.Parser
import GraphQL.Proofs.Numbers.Nearest
import GraphQL.Proofs.Numbers.Recognition

/-! Floating-point literals.

Any literal with a fraction or an exponent is read, and as the number of 64 bits that is
nearest to what it stands for. -/

namespace GraphQL

/-! ## Literals of numbers -/

namespace Numeral

theorem exists_sign {text : List Char} (written : text ∈ Number.signPattern.matches') :
    ∃ sign : NumeralSign, sign.text = text := by
  rcases Number.mem_signPattern.mp written with rfl | rfl
  · exact ⟨.none, rfl⟩
  · exact ⟨.minus, rfl⟩

theorem exists_digits {text : List Char}
    (written : text ∈ Number.decimalDigits.matches') :
    ∃ digits : Digits, digits ≠ [] ∧ Digits.text digits = text := by
  obtain ⟨nonempty, all⟩ := Number.mem_decimalDigits.mp written
  obtain ⟨digits, rfl⟩ := Digits.exists_text all
  exact ⟨digits, fun empty => nonempty (Digits.text_eq_nil_iff.mpr empty), rfl⟩

theorem exists_fraction {text : List Char}
    (written : text ∈ Number.fractionPattern.matches') :
    ∃ fraction : Option Digits, (fraction.map ('.' :: Digits.text ·)).getD [] = text := by
  rcases Number.mem_fractionPattern.mp written with rfl | ⟨digits, isDigits, rfl⟩
  · exact ⟨none, rfl⟩
  · obtain ⟨digits, _, rfl⟩ := exists_digits isDigits
    exact ⟨some digits, rfl⟩

theorem exists_exponent_of_mem {text : List Char}
    (written : text ∈ Number.exponentPattern.matches') :
    ∃ exponent : Option Exponent, (exponent.map Exponent.text).getD [] = text := by
  rcases Number.mem_exponentPattern.mp written with
    rfl | ⟨mark, isMark, sign, isSign, digits, isDigits, rfl⟩
  · exact ⟨none, rfl⟩
  · obtain ⟨digits, nonempty, rfl⟩ := exists_digits isDigits
    obtain ⟨isCapital, rfl⟩ :
        ∃ isCapital : Bool, (if isCapital then 'E' else 'e') = mark := by
      simp only [List.mem_cons, List.not_mem_nil, or_false] at isMark
      rcases isMark with rfl | rfl
      · exact ⟨false, rfl⟩
      · exact ⟨true, rfl⟩
    obtain ⟨sign, rfl⟩ : ∃ sign' : NumeralSign, sign'.text = sign := by
      simp only [List.mem_cons, List.not_mem_nil, or_false] at isSign
      rcases isSign with rfl | rfl | rfl
      exacts [⟨.none, rfl⟩, ⟨.plus, rfl⟩, ⟨.minus, rfl⟩]
    exact ⟨some ⟨isCapital, sign, digits, nonempty⟩, rfl⟩

theorem exists_text_eq {number : List Char}
    (isNumber : number ∈ Number.pattern.matches') :
    ∃ numeral : Numeral, numeral.text = number := by
  obtain ⟨_, ⟨sign, isSign, integer, isInteger, rfl⟩, _,
    ⟨fraction, isFraction, exponent, isExponent, rfl⟩,
      rfl⟩ := Number.mem_pattern.mp isNumber
  obtain ⟨sign, rfl⟩ := exists_sign isSign
  obtain ⟨integer, rfl⟩ :=
    Digits.exists_text (Number.isDigit_of_mem_integerPattern isInteger)
  have nonempty : integer ≠ [] := by
    rintro rfl
    exact Number.ne_nil_of_mem_integerPattern isInteger rfl
  obtain ⟨fraction, rfl⟩ := exists_fraction isFraction
  obtain ⟨exponent, rfl⟩ := exists_exponent_of_mem isExponent
  refine ⟨⟨sign, integer, fraction, exponent,
    List.append_ne_nil_of_left_ne_nil nonempty _⟩, ?_⟩
  simp only [text, fractionText, exponentText, List.append_assoc]

end Numeral

/-! ## Values -/

open Number in
theorem mem_pattern_of_float {cursor after : Cursor} {token : Token} {text : String}
    (read : cursor.next = .ok (token, after)) (isFloat : token.lexeme = .float text) :
    text.toList ∈ pattern.matches' := by
  obtain ⟨number, isNumber, equal⟩ := Cursor.exists_heads read (by rw [isFloat]; rfl)
  rw [isFloat, lexemeOf] at equal
  split at equal
  next =>
    cases equal
    rwa [String.toList_ofList]
  next => cases equal

section

variable (deeper : (part : Nonterminal) → Parser part.Tree) (lexer : Lexer)

theorem Rule.run_peek_current_bind {α : Type} (second : Lexeme → Rule α) :
    (peek .current >>= second).run deeper lexer =
      (second lexer.current.lexeme).run deeper lexer := rfl

theorem Grammar.run_numberValue (fits : Bool) (build : Extent → Value Extent)
    (fault : GrammarFault) :
    (Grammar.numberValue fits build fault).run deeper lexer =
      match lexer.advance with
      | (.ok _, after) =>
          if fits then (.ok (build ⟨lexer.current.ordinal, after.last.ordinal⟩), after)
          else (.error (.grammatical fault after.last.ordinal), after)
      | (.error error, after) => (.error (.lexical error), after) := by
  change Parser.located
    (Parser.bind (Parser.bind (Parser.ask Lexer.advance) fun _ => Parser.pure ()) fun _ =>
      Rule.run deeper (if fits then _ else _)) lexer = _
  unfold Parser.located Parser.bind Parser.ask
  cases lexer.advance with
  | mk answer after => cases answer <;> cases fits <;> rfl

end

/-- Where a literal stands that spells a number, it is taken for its value. Nothing but a
fault behind it can go wrong. -/
theorem value_of_float (constness : Constness)
    (deeper : (part : Nonterminal) → Parser part.Tree)
    {lexer : Lexer} {text : String} (current : lexer.current.lexeme = .float text)
    (isLiteral : Decimal.isLiteral text.toList = true) :
    (Grammar.value constness).run deeper lexer =
      match lexer.advance with
      | (.ok _, after) =>
          (.ok (.float (.ofLiteral text.toList)
            ⟨lexer.current.ordinal, after.last.ordinal⟩), after)
      | (.error error, after) => (.error (.lexical error), after) := by
  have chosen : (Grammar.value constness).run deeper lexer =
      (Grammar.floatValue text).run deeper lexer := by
    unfold Grammar.value
    rw [Rule.run_peek_current_bind, current]
  rw [chosen, Grammar.floatValue, Grammar.run_numberValue, isLiteral]
  rfl

/-- Any token for a number with a fraction or an exponent spells a number, so it is never
refused where a value is read, and it is taken for the nearest number there is. -/
theorem floats_rounded (cursor after : Cursor) (token : Token) (text : String)
    (read : cursor.next = .ok (token, after)) (isFloat : token.lexeme = .float text) :
    (Decimal.isLiteral text.toList = true ∧
      ∃ numeral : Numeral, numeral.text = text.toList) ∧
      (∀ numeral : Numeral, numeral.text = text.toList →
        Binary64.Rounds numeral.value (.ofLiteral text.toList) ∧
          ((Binary64.ofLiteral text.toList).isNegative = true ↔
            text.toList.head? = some '-')) ∧
      ∀ (constness : Constness) (deeper : (part : Nonterminal) →
        Parser part.Tree) (lexer : Lexer),
        lexer.current.lexeme = .float text →
          (Grammar.value constness).run deeper lexer =
            match lexer.advance with
            | (.ok _, after) =>
                (.ok (.float (.ofLiteral text.toList)
                  ⟨lexer.current.ordinal, after.last.ordinal⟩), after)
            | (.error error, after) => (.error (.lexical error), after) := by
  obtain ⟨numeral, written⟩ := Numeral.exists_text_eq (mem_pattern_of_float read isFloat)
  have isLiteral : Decimal.isLiteral text.toList = true :=
    written ▸ numeral.isLiteral_text
  refine ⟨⟨isLiteral, numeral, written⟩, fun numeral written => ?_,
    fun constness deeper lexer current =>
      value_of_float constness deeper current isLiteral⟩
  obtain ⟨rounds, isNegative⟩ := Binary64.rounds_ofLiteral numeral
  rw [← written, isNegative, ← numeral.head?_text, beq_iff_eq]
  exact ⟨rounds, Iff.rfl⟩

theorem subnormal_rounded :
    (∃ after, (Cursor.start { body := "-4.9e-324" }).next =
        .ok (⟨.float "-4.9e-324", .origin, 9, 1, 1⟩, after)) ∧
      Binary64.Rounds (Numeral.value
        ⟨.minus, [4], some [9], some ⟨false, .minus, [3, 2, 4], by decide⟩, by decide⟩)
        ⟨0x8000000000000001⟩ := by
  have read : (Cursor.start { body := "-4.9e-324" }).next =
      .ok (⟨.float "-4.9e-324", .origin, 9, 1, 1⟩, _) := rfl
  have bits : Binary64.ofLiteral "-4.9e-324".toList = ⟨0x8000000000000001⟩ := by
    decide +kernel
  obtain ⟨_, rounds, _⟩ := floats_rounded _ _ _ _ read rfl
  rw [bits] at rounds
  exact ⟨⟨_, read⟩,
    (rounds ⟨.minus, [4], some [9], some ⟨false, .minus, [3, 2, 4], _⟩, _⟩ rfl).1⟩

end GraphQL
