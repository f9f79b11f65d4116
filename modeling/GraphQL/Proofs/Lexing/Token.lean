import GraphQL.Proofs.Lexing.Number
import GraphQL.Proofs.Lexing.Strings

/-! Every token covers the front of the text, and is read from that alone. -/

namespace GraphQL

open Text

structure Reading.Stands (text : List Char) (reading : Reading) : Prop
    extends Reading.Covers readToken text reading where
  nonempty : reading.text ≠ []
  notStart : reading.lexeme ≠ .startOfFile
  notEnd : reading.lexeme ≠ .endOfFile

variable {char : Char} {text : List Char} {reading : Reading}

/-! ## Marks, names and numbers -/

theorem readToken_of_other (other : char ∉ ['.', '"', '#']) (rest : List Char) :
    readToken (char :: rest) =
      match Punctuator.ofChar? char with
      | some mark => .ok ⟨.punctuator mark, [char], rest⟩
      | none =>
          if char == '-' || char.isDigit then readNumber (char :: rest)
          else if isNameStart char then .ok (readName (char :: rest))
          else .error ⟨faultOfChar char, []⟩ := by
  rw [readToken.eq_def]
  split
  next equal => cases equal
  next equal => cases equal; simp at other
  next equal => cases equal; simp at other
  next equal => cases equal; simp at other
  next equal => cases equal; simp at other
  next equal =>
    cases equal
    rfl

theorem head_of_append {covered rest : List Char} (whole : char :: text = covered ++ rest)
    (nonempty : covered ≠ []) : ∃ more, covered = char :: more := by
  cases covered with
  | nil => exact (nonempty rfl).elim
  | cons first more =>
      cases whole
      exact ⟨more, rfl⟩

theorem isNameContinue_of_isNameStart (starts : isNameStart char = true) :
    isNameContinue char = true := by
  simp only [isNameStart, isNameContinue, Char.isAlphanum, Bool.or_eq_true] at *
  exact starts.imp_right .inl

theorem Reading.Covers.stands {reader : List Char → Except Misread Reading}
    (covers : reading.Covers reader (char :: text)) (nonempty : reading.text ≠ [])
    (same : ∀ rest, readToken (char :: rest) = reader (char :: rest))
    (notStart : reading.lexeme ≠ .startOfFile) (notEnd : reading.lexeme ≠ .endOfFile) :
    reading.Stands (char :: text) where
  whole := covers.whole
  again {rest} follows := by
    have read := covers.again follows
    obtain ⟨more, text'⟩ := head_of_append covers.whole nonempty
    rw [text', List.cons_append] at read ⊢
    rw [same, read]
  nonempty := nonempty
  notStart := notStart
  notEnd := notEnd

theorem stands_of_other (other : char ∉ ['.', '"', '#'])
    (read : readToken (char :: text) = .ok reading) : reading.Stands (char :: text) := by
  have unfolded := readToken_of_other other
  rw [unfolded] at read
  split at read
  next mark isMark =>
    cases read
    refine ⟨⟨rfl, fun _ => ?_⟩, nofun, nofun, nofun⟩
    rw [List.cons_append, unfolded, isMark]
    rfl
  next notMark =>
  split at read
  next isNumber =>
    obtain ⟨covers, lexeme⟩ := readNumber_covers read
    refine covers.stands ?_ (fun rest => ?_) ?_ ?_
    · intro empty
      have read' := covers.again (.inr breaks_nil)
      rw [empty] at read'
      cases read'
    · rw [unfolded, notMark]
      exact if_pos isNumber
    · rcases lexeme with equal | equal <;> simp [equal]
    · rcases lexeme with equal | equal <;> simp [equal]
  next notNumber =>
  split at read
  next isName =>
    cases read
    refine (readName_covers (char :: text)).stands ?_ (fun rest => ?_) nofun nofun
    · simp [readName, isNameContinue_of_isNameStart isName]
    · rw [unfolded, notMark]
      exact (if_neg notNumber).trans (if_pos isName)
  next => cases read

/-! ## Strings and spreads -/

theorem readToken_string (single : ∀ more, text ≠ '"' :: '"' :: more) :
    readToken ('"' :: text) = readString text := by
  rw [readToken.eq_def]
  split
  next equal => cases equal
  next equal => cases equal
  next equal =>
    cases equal
    exact (single _ rfl).elim
  next equal =>
    cases equal
    rfl
  next equal => cases equal
  next notQuote _ equal =>
    cases equal
    exact (notQuote rfl).elim

theorem stands_of_quote (read : readToken ('"' :: text) = .ok reading) :
    reading.Stands ('"' :: text) := by
  by_cases isBlock : ∃ more, text = '"' :: '"' :: more
  · obtain ⟨text, rfl⟩ := isBlock
    change readBlockString text = _ at read
    unfold readBlockString at read
    split at read
    next content block =>
      cases read
      have ⟨_, whole, again⟩ := readBlock_covers block
      refine ⟨⟨congrArg (tripleQuote ++ ·) whole, fun {rest} _ => ?_⟩, by
        simp [tripleQuote], nofun, nofun⟩
      change readBlockString (content.text ++ rest) = _
      rw [readBlockString, again]
    next => cases read
  · have single : ∀ more, text ≠ '"' :: '"' :: more :=
      fun more equal => isBlock ⟨more, equal⟩
    rw [readToken_string single] at read
    obtain ⟨inner, value, text', lexeme, nonempty, whole, again⟩ := readString_covers read
    refine ⟨⟨?_, fun {rest} follows => ?_⟩, by
      simp [text'], by simp [lexeme], by simp [lexeme]⟩
    · rw [whole, text']
      rfl
    · rw [text', List.cons_append, readToken_string, again, text']
      -- Two quotes are an empty string if no third follows.
      intro more equal
      cases inner with
      | nil => exact nonempty rfl
      | cons first inner =>
          cases inner with
          | nil =>
              cases equal
              rcases follows with same | breaks
              · obtain ⟨behind, rest'⟩ := List.head?_eq_some_iff.mp same.symm
                exact single behind (by rw [whole, rest']; rfl)
              · simp [isLineEnd] at breaks
          | cons second inner =>
              cases equal
              exact single _ (whole.trans rfl)

theorem stands_of_dot (read : readToken ('.' :: text) = .ok reading) :
    reading.Stands ('.' :: text) := by
  rw [readToken.eq_def] at read
  split at read
  next equal => cases equal
  next equal =>
    cases equal
    cases read
    exact ⟨⟨rfl, fun _ => rfl⟩, nofun, nofun, nofun⟩
  next equal => cases equal
  next equal => cases equal
  next equal => cases equal
  next equal =>
    cases equal
    cases read

theorem readToken_stands (nonempty : text ≠ []) (read : readToken text = .ok reading) :
    reading.Stands text := by
  cases text with
  | nil => exact (nonempty rfl).elim
  | cons char text =>
      by_cases other : char ∉ ['.', '"', '#']
      · exact stands_of_other other read
      · simp only [List.mem_cons, List.not_mem_nil, or_false, Decidable.not_not] at other
        rcases other with rfl | rfl | rfl
        · exact stands_of_dot read
        · exact stands_of_quote read
        · cases read
          have covers := readComment_covers text
          exact ⟨⟨covers.whole, fun follows => covers.again follows⟩, nofun, nofun, nofun⟩

end GraphQL
