import GraphQL.Proofs.Lexing.Pieces

/-! Strings are read up to their closing quotes, whatever follows. -/

namespace GraphQL

open Text

/-- What is read of a string covers the front of the text, whatever is behind. -/
structure StringContent.Covers (reader : List Char → Except Misread StringContent)
    (text : List Char) (content : StringContent) : Prop where
  whole : text = content.text ++ content.rest
  again : ∀ rest, reader (content.text ++ rest) = .ok { content with rest }

/-! ## Strings on one line -/

theorem readQuoted_covers {text : List Char} {content : StringContent}
    (read : readQuoted 0 text = .ok content) : content.Covers (readQuoted 0) text := by
  obtain ⟨pieces, whole, same⟩ := exists_pieces_of_readQuoted read
  rw [same]
  refine ⟨by rw [whole, List.append_assoc]; rfl, fun rest => ?_⟩
  rw [List.append_assoc]
  exact readQuoted_closed pieces rest

theorem readQuoted_closes {text : List Char} {content : StringContent}
    (read : readQuoted 0 text = .ok content) :
    ∃ inner, content.text = inner ++ ['"'] := by
  obtain ⟨pieces, _, same⟩ := exists_pieces_of_readQuoted read
  exact ⟨_, congrArg StringContent.text same⟩

theorem readString_covers {text : List Char} {reading : Reading}
    (read : readString text = .ok reading) :
    ∃ inner value, reading.text = '"' :: inner ∧
      reading.lexeme = .string value ∧ inner ≠ [] ∧
      text = inner ++ reading.rest ∧
        ∀ rest, readString (inner ++ rest) = .ok { reading with rest } := by
  unfold readString at read
  split at read
  next content quoted =>
    cases read
    have ⟨whole, again⟩ := readQuoted_covers quoted
    obtain ⟨inner, closed⟩ := readQuoted_closes quoted
    have positive : content.text ≠ [] := by simp [closed]
    exact ⟨content.text, _, rfl, rfl, positive, whole, fun rest => by
      simp [readString, again]⟩
  next => cases read

/-! ## Block strings -/

theorem readBlock_cons {char : Char} {rest : List Char}
    (notQuotes : ∀ more, char = '"' → rest ≠ '"' :: '"' :: more)
    (notEscape : ∀ more, char = '\\' → rest ≠ '"' :: '"' :: '"' :: more) :
    readBlock (char :: rest) =
      if isForbiddenControl char then .error ⟨.invalidStringCharacter char, []⟩
      else StringContent.precede [char] [char] (readBlock rest) := by
  rw [readBlock.eq_def]
  split
  next equal => cases equal
  next equal =>
    cases equal
    exact (notQuotes _ rfl rfl).elim
  next equal =>
    cases equal
    exact (notEscape _ rfl rfl).elim
  next equal =>
    cases equal
    rfl

/-- Whether the text begins with quotes can be told from four characters. -/
theorem readBlock_covers {text : List Char} {content : StringContent}
    (read : readBlock text = .ok content) :
    3 ≤ content.text.length ∧ content.Covers readBlock text := by
  fun_induction readBlock text generalizing content with
  | case1 => cases read
  | case2 rest =>
      cases read
      exact ⟨Nat.le_refl _, rfl, fun rest => rfl⟩
  | case3 rest induction =>
      obtain ⟨inner, behind, rfl⟩ := precede_eq_ok.mp read
      obtain ⟨length, whole, again⟩ := induction behind
      refine ⟨?_, ?_, fun rest => ?_⟩
      · rw [List.length_append]
        exact Nat.le_trans length (Nat.le_add_left _ _)
      · rw [List.append_assoc, ← whole]
        rfl
      · simp [readBlock, tripleQuote, again, StringContent.precede]
  | case4 => cases read
  | case5 char rest notQuotes notEscape allowed induction =>
      obtain ⟨inner, behind, rfl⟩ := precede_eq_ok.mp read
      obtain ⟨length, whole, again⟩ := induction behind
      refine ⟨Nat.le_trans length (by simp), congrArg (char :: ·) whole, fun other => ?_⟩
      -- Three more characters are covered, so the same ones are looked at.
      obtain ⟨value, covered, behind'⟩ := inner
      change 3 ≤ covered.length at length
      change rest = covered ++ behind' at whole
      rcases covered with _ | ⟨first, _ | ⟨second, _ | ⟨third, covered⟩⟩⟩
      iterate 3 exact absurd length (by simp)
      subst whole
      have again' := again other
      have notQuotes' : ∀ more, char = '"' →
          first :: second :: third :: (covered ++ other) ≠ '"' :: '"' :: more := by
        rintro more isQuote equal
        cases equal
        exact notQuotes _ isQuote rfl
      have notEscape' : ∀ more, char = '\\' →
          first :: second :: third :: (covered ++ other) ≠ '"' :: '"' :: '"' :: more := by
        rintro more isBackslash equal
        cases equal
        exact notEscape _ isBackslash rfl
      change readBlock (char :: first :: second :: third :: (covered ++ other)) = _
      rw [readBlock_cons notQuotes' notEscape', if_neg allowed]
      change StringContent.precede [char] [char]
        (readBlock (first :: second :: third :: covered ++ other)) = _
      rw [again']
      rfl

theorem readBlock_closes {text : List Char} {content : StringContent}
    (read : readBlock text = .ok content) :
    ∃ inner, content.text = inner ++ tripleQuote := by
  fun_induction readBlock text generalizing content with
  | case1 => cases read
  | case2 =>
      cases read
      exact ⟨[], rfl⟩
  | case3 rest induction =>
      obtain ⟨behind, read', rfl⟩ := precede_eq_ok.mp read
      obtain ⟨inner, text'⟩ := induction read'
      exact ⟨'\\' :: tripleQuote ++ inner, by rw [text', List.append_assoc]⟩
  | case4 => cases read
  | case5 char rest _ _ _ induction =>
      obtain ⟨behind, read', rfl⟩ := precede_eq_ok.mp read
      obtain ⟨inner, text'⟩ := induction read'
      exact ⟨char :: inner, by rw [text']; rfl⟩

end GraphQL
