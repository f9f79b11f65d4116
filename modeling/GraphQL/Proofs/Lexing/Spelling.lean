import GraphQL.Proofs.Lexing.Token

/-! How the tokens of each kind are written.

The text that a token covers shows its kind, and but for strings also what it says. No
name and no number runs on into another. -/

namespace GraphQL

open Text

namespace Lexeme

def IsWritten : Lexeme → List Char → Prop
  | startOfFile, text | endOfFile, text => text = []
  | punctuator mark, text => text = mark.text.toList
  | name word, text | integer word, text | float word, text => text = word.toList
  | comment words, text =>
      text = '#' :: words.toList ∧ ∀ char ∈ words.toList, isLineEnd char = false
  | string _, text => ∃ inner, text = '"' :: inner ++ ['"']
  | blockString _, text => ∃ inner, text = tripleQuote ++ inner ++ tripleQuote

/-- Names and numbers are written in letters and digits. -/
def isWord : Lexeme → Bool
  | name _ | integer _ | float _ => true
  | _ => false

end Lexeme

/-- The token is written as its kind is, and ends where it cannot go on. -/
structure Reading.Spelled (reading : Reading) : Prop where
  isWritten : reading.lexeme.IsWritten reading.text
  ends : reading.lexeme.isWord = true →
    ∀ char ∈ reading.rest.head?, isNameContinue char = false

theorem Reading.Spelled.of_isWritten {reading : Reading}
    (isWritten : reading.lexeme.IsWritten reading.text)
    (other : reading.lexeme.isWord = false) : reading.Spelled := by
  refine ⟨isWritten, fun isWord => ?_⟩
  rw [other] at isWord
  cases isWord

/-! ## Numbers -/

namespace Number

/-- No digit follows the part of a number that has been taken. -/
def Cut.Stops (cut : Cut) : Prop := ∀ char ∈ cut.rest.head?, char.isDigit = false

variable {cut after : Cut}

theorem stops_digits (outcome : digits cut = .ok after) : after.Stops := by
  unfold digits at outcome
  split at outcome
  next =>
    cases outcome
    exact dropWhile_stops _ _
  next => cases outcome

theorem stops_integerPart (outcome : integerPart cut = .ok after) : after.Stops := by
  unfold integerPart at outcome
  split at outcome
  next rest _ =>
    cases rest with
    | nil =>
        cases outcome
        exact nofun
    | cons next rest =>
        simp only [List.head?_cons] at outcome
        split at outcome
        next => cases outcome
        next other =>
          cases outcome
          simpa [Cut.Stops, Cut.push] using other
  next => exact stops_digits outcome

theorem stops_fractionPart (stops : cut.Stops) (outcome : fractionPart cut = .ok after) :
    after.Stops := by
  unfold fractionPart at outcome
  split at outcome
  next => exact stops_digits outcome
  next =>
    cases outcome
    exact stops

theorem stops_exponentPart (stops : cut.Stops) (outcome : exponentPart cut = .ok after) :
    after.Stops := by
  unfold exponentPart at outcome
  split at outcome
  next => exact stops_digits outcome
  next => exact stops_digits outcome
  next =>
    cases outcome
    exact stops

theorem ended_eq_ok (outcome : ended cut = .ok after) :
    after = cut ∧ ∀ char ∈ cut.rest.head?, isNameStart char = false := by
  unfold ended at outcome
  split at outcome
  next next first =>
    split at outcome
    next => cases outcome
    next other =>
      cases outcome
      refine ⟨rfl, fun char same => ?_⟩
      rw [first] at same
      cases same
      simp only [Bool.or_eq_true, not_or, Bool.not_eq_true] at other
      exact other.2
  next missing =>
    cases outcome
    exact ⟨rfl, by simp [missing]⟩

end Number

theorem isNameContinue_eq_false {char : Char} (notStart : isNameStart char = false)
    (notDigit : char.isDigit = false) : isNameContinue char = false := by
  simp only [isNameStart, isNameContinue, Char.isAlphanum, Bool.or_eq_false_iff] at *
  exact ⟨notStart.1, notStart.2, notDigit⟩

open Number in
theorem readNumber_ends {text : List Char} {reading : Reading}
    (outcome : readNumber text = .ok reading) :
    ∀ char ∈ reading.rest.head?, isNameContinue char = false := by
  obtain ⟨integer, first, outcome⟩ := bind_eq_ok.mp outcome
  obtain ⟨fraction, second, outcome⟩ := bind_eq_ok.mp outcome
  obtain ⟨number, third, outcome⟩ := bind_eq_ok.mp outcome
  obtain ⟨whole, last, outcome⟩ := bind_eq_ok.mp outcome
  cases outcome
  obtain ⟨rfl, notStart⟩ := ended_eq_ok last
  have stops :=
    stops_exponentPart (stops_fractionPart (stops_integerPart first) second) third
  exact fun char next => isNameContinue_eq_false (notStart char next) (stops char next)

/-! ## Tokens -/

variable {char : Char} {text : List Char} {reading : Reading}

theorem Punctuator.toList_text_of_ofChar? {mark : Punctuator}
    (isMark : ofChar? char = some mark) :
    [char] = mark.text.toList := by
  unfold ofChar? at isMark
  split at isMark <;> cases isMark <;> decide

theorem spelled_of_other (other : char ∉ ['.', '"', '#'])
    (read : readToken (char :: text) = .ok reading) : reading.Spelled := by
  rw [readToken_of_other other] at read
  split at read
  next mark isMark =>
    cases read
    exact .of_isWritten (Punctuator.toList_text_of_ofChar? isMark) rfl
  next =>
  split at read
  next =>
    have ends := readNumber_ends read
    rcases (readNumber_covers read).2 with lexeme | lexeme
    · exact ⟨by simp [lexeme, Lexeme.IsWritten], fun _ => ends⟩
    · exact ⟨by simp [lexeme, Lexeme.IsWritten], fun _ => ends⟩
  next =>
  split at read
  next =>
    cases read
    exact ⟨by simp [readName, Lexeme.IsWritten], fun _ => dropWhile_stops _ _⟩
  next => cases read

theorem spelled_of_quote (read : readToken ('"' :: text) = .ok reading) :
    reading.Spelled := by
  by_cases isBlock : ∃ more, text = '"' :: '"' :: more
  · obtain ⟨text, rfl⟩ := isBlock
    change readBlockString text = _ at read
    unfold readBlockString at read
    split at read
    next content block =>
      cases read
      obtain ⟨inner, text'⟩ := readBlock_closes block
      exact .of_isWritten ⟨inner, by rw [text', List.append_assoc]⟩ rfl
    next => cases read
  · rw [readToken_string fun more equal => isBlock ⟨more, equal⟩] at read
    unfold readString at read
    split at read
    next content quoted =>
      cases read
      obtain ⟨inner, text'⟩ := readQuoted_closes quoted
      exact .of_isWritten ⟨inner, by rw [text']; rfl⟩ rfl
    next => cases read

theorem spelled_of_dot (read : readToken ('.' :: text) = .ok reading) :
    reading.Spelled := by
  rw [readToken.eq_def] at read
  split at read
  next equal => cases equal
  next =>
    cases read
    exact .of_isWritten (show ['.', '.', '.'] =
      Punctuator.spread.text.toList by decide) rfl
  next equal => cases equal
  next equal => cases equal
  next equal => cases equal
  next equal =>
    cases equal
    cases read

theorem readComment_spelled (text : List Char) : (readComment text).Spelled := by
  refine .of_isWritten ⟨by simp [readComment], fun char member => ?_⟩ rfl
  have member : char ∈ text.takeWhile (!isLineEnd ·) := by
    simpa [readComment] using member
  simpa using List.mem_takeWhile_imp member

theorem readToken_of_isWord (read : readToken text = .ok reading)
    (isWord : reading.lexeme.isWord = true) :
    readNumber text = .ok reading ∨ text.head?.any isNameStart = true ∧
      reading = readName text := by
  rw [readToken.eq_def] at read
  split at read
  next =>
    cases read
    cases isWord
  next =>
    cases read
    cases isWord
  next =>
    unfold readBlockString at read
    split at read
    next =>
      cases read
      cases isWord
    next => cases read
  next =>
    unfold readString at read
    split at read
    next =>
      cases read
      cases isWord
    next => cases read
  next =>
    cases read
    cases isWord
  next =>
  split at read
  next =>
    cases read
    cases isWord
  next =>
  split at read
  next => exact .inl read
  next =>
  split at read
  next starts =>
    cases read
    exact .inr ⟨starts, rfl⟩
  next => cases read

/-- Every token is written as its kind is, and ends where it cannot go on. -/
theorem readToken_spelled (read : readToken text = .ok reading) : reading.Spelled := by
  cases text with
  | nil =>
      cases read
      exact .of_isWritten rfl rfl
  | cons char text =>
      by_cases other : char ∉ ['.', '"', '#']
      · exact spelled_of_other other read
      · simp only [List.mem_cons, List.not_mem_nil, or_false, Decidable.not_not] at other
        rcases other with rfl | rfl | rfl
        · exact spelled_of_dot read
        · exact spelled_of_quote read
        · cases read
          exact readComment_spelled text

end GraphQL
