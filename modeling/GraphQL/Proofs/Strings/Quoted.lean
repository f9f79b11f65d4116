import GraphQL.Proofs.Lexing.Cutting

/-! Strings between double quotes are written in pieces.

Every row of pieces between quotes is a token, which says what the pieces stand for, and
every string token is written so. -/

namespace GraphQL

open Text

namespace StringPiece

def quote (pieces : List StringPiece) : List Char := '"' :: pieces.flatMap text ++ ['"']

def meaning (pieces : List StringPiece) : String := String.ofList (pieces.map meant)

theorem readToken_quote (pieces : List StringPiece) :
    readToken (quote pieces) = .ok ⟨.string (meaning pieces), quote pieces, []⟩ := by
  have single : ∀ more, pieces.flatMap text ++ ['"'] ≠ '"' :: '"' :: more := by
    intro more equal
    cases pieces with
    | nil => cases equal
    | cons piece pieces =>
        rw [List.flatMap_cons, List.append_assoc] at equal
        exact piece.head?_text _ (congrArg List.head? equal)
  rw [quote, List.cons_append, readToken_string single, readString, readQuoted_closed]
  rfl

theorem exists_quote_eq {text : List Char} {value : String}
    (read : readToken text = .ok ⟨.string value, text, []⟩) :
    ∃ pieces, text = quote pieces ∧ value = meaning pieces := by
  obtain ⟨inner, rfl⟩ : ∃ inner, text = '"' :: inner ++ ['"'] :=
    (readToken_spelled read).isWritten
  rw [List.cons_append] at read
  by_cases isBlock : ∃ more, inner ++ ['"'] = '"' :: '"' :: more
  · obtain ⟨more, equal⟩ := isBlock
    rw [equal] at read
    change readBlockString more = _ at read
    unfold readBlockString at read
    split at read <;> cases read
  · rw [readToken_string fun more equal => isBlock ⟨more, equal⟩] at read
    unfold readString at read
    split at read
    next content quoted =>
      obtain ⟨pieces, _, same⟩ := exists_pieces_of_readQuoted quoted
      rw [same] at read
      simp only [Except.ok.injEq, Reading.mk.injEq, Lexeme.string.injEq, List.cons.injEq,
        true_and] at read
      obtain ⟨rfl, whole, _⟩ := read
      exact ⟨pieces, by rw [quote, List.cons_append, List.cons_append, whole], rfl⟩
    next => cases read

end StringPiece

open StringPiece

/-- Any pieces between quotes are one string, which says what they stand for, and every
string of a source is written so. -/
theorem strings_inPieces :
    (∀ (pieces : List StringPiece) (name : String) (offset : Location),
      Source.IsToken ⟨String.ofList (quote pieces), name, offset⟩
        (.string (meaning pieces))) ∧
    ∀ (source : Source) (tokens : List Token), tokenize source = .ok tokens →
      ∀ token ∈ tokens, ∀ value, token.lexeme = .string value →
        ∃ pieces, source.textOf token.span = String.ofList (quote pieces) ∧
        value = meaning pieces := by
  refine ⟨fun pieces name offset => ?_,
    fun source tokens tokenized token member value isString => ?_⟩
  · refine Source.isToken_of_readToken (readToken_quote pieces) rfl ?_ name offset
    rintro _ ⟨⟩
    rfl
  · have read :=
      ((tiles_of_tokenize tokenized).tile token member).read (by rw [isString]; rfl)
    rw [isString] at read
    obtain ⟨pieces, written, decoded⟩ := exists_quote_eq read
    exact ⟨pieces, by rw [← written, String.ofList_toList], decoded⟩

theorem smile_inPieces :
    ∃ tokens token, tokenize { body := "\"\" \"\\ud83D\\uDe00\\n\"" } = .ok tokens ∧
      token ∈ tokens ∧
      token.lexeme = .string "😀\n" ∧
        ∃ pieces, Source.textOf { body := "\"\" \"\\ud83D\\uDe00\\n\"" } token.span =
          String.ofList (quote pieces) ∧ "😀\n" = meaning pieces := by
  let token : Token := ⟨.string "😀\n", ⟨3, ⟨1, 4⟩⟩, 19, 2, 2⟩
  have tokenized : tokenize { body := "\"\" \"\\ud83D\\uDe00\\n\"" } =
      .ok [.startOfFile, ⟨.string "", .origin, 2, 1, 1⟩, token,
        ⟨.endOfFile, ⟨19, ⟨1, 20⟩⟩, 19, 3, 3⟩] := by rfl
  have member :
      token ∈ [.startOfFile, ⟨.string "", .origin, 2, 1, 1⟩, token,
        ⟨.endOfFile, ⟨19, ⟨1, 20⟩⟩, 19, 3, 3⟩] := by
    simp
  exact ⟨_, token, tokenized, member, rfl,
    strings_inPieces.2 _ _ tokenized token member _ rfl⟩

end GraphQL
