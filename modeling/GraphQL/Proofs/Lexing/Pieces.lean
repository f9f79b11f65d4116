import GraphQL.Proofs.Lexing.Reading

/-! What stands between the quotes of a string is a row of pieces.

A piece stands for one character. It is read as that character whatever is behind it, and
what can be read of a string is made of pieces, up to the quote that closes it. -/

namespace GraphQL

open Text

/-! ## What is in front of a content -/

theorem precede_eq_ok {covered meant : List Char} {outcome : Except Misread StringContent}
    {content : StringContent} :
    StringContent.precede covered meant outcome = .ok content ↔
      ∃ inner, outcome = .ok inner ∧
        content = ⟨meant ++ inner.value, covered ++ inner.text, inner.rest⟩ := by
  cases outcome with
  | error misread => simp [StringContent.precede]
  | ok inner => simp [StringContent.precede, eq_comm]

theorem precede_nil (outcome : Except Misread StringContent) :
    StringContent.precede [] [] outcome = outcome := by
  cases outcome <;> rfl

theorem precede_precede (covered meant covered' meant' : List Char)
    (outcome : Except Misread StringContent) :
    StringContent.precede covered meant (StringContent.precede covered' meant' outcome) =
      StringContent.precede (covered ++ covered') (meant ++ meant') outcome := by
  cases outcome <;> simp [StringContent.precede, Misread.after]

/-! ## Hexadecimal digits -/

/-- A hexadecimal digit, and the case that it is written in -/
structure HexDigit where
  value : Fin 16
  isUpper : Bool
  deriving DecidableEq

namespace HexDigit

def char (digit : HexDigit) : Char :=
  if digit.isUpper then (Nat.digitChar digit.value).toUpper else Nat.digitChar digit.value

theorem hexValue?_char (digit : HexDigit) :
    hexValue? digit.char = some digit.value.val := by
  obtain ⟨value, isUpper⟩ := digit
  revert value isUpper
  decide

theorem isLineEnd_char (digit : HexDigit) : isLineEnd digit.char = false :=
  not_isLineEnd (hexValue? · = some digit.value.val) digit.hexValue?_char nofun nofun

theorem exists_ofNat_of_range {low high char : Char} (range : low ≤ char ∧ char ≤ high) :
    ∃ offset ≤ high.toNat - low.toNat, char = Char.ofNat (low.toNat + offset) ∧
      char.toNat - low.toNat = offset := by
  have least : low.toNat ≤ char.toNat := UInt32.le_iff_toNat_le.mp range.1
  have most : char.toNat ≤ high.toNat := UInt32.le_iff_toNat_le.mp range.2
  refine ⟨char.toNat - low.toNat, by omega, ?_, rfl⟩
  rw [Nat.add_sub_cancel' least, Char.ofNat_toNat]

theorem exists_char_eq {char : Char} {value : Nat} (read : hexValue? char = some value) :
    ∃ digit : HexDigit, digit.char = char ∧ digit.value.val = value := by
  have digits : ∀ offset ≤ 9, ∃ value : Fin 16,
      HexDigit.char ⟨value, false⟩ = Char.ofNat ('0'.toNat + offset) ∧
        value.val = offset := by decide
  have lower : ∀ offset ≤ 5, ∃ value : Fin 16,
      HexDigit.char ⟨value, false⟩ = Char.ofNat ('a'.toNat + offset) ∧
        value.val = offset + 10 := by decide
  have upper : ∀ offset ≤ 5, ∃ value : Fin 16,
      HexDigit.char ⟨value, true⟩ = Char.ofNat ('A'.toNat + offset) ∧
        value.val = offset + 10 := by decide
  unfold hexValue? at read
  split at read
  next range =>
    obtain ⟨offset, le, same, rfl⟩ := exists_ofNat_of_range range
    obtain ⟨digit, spelled, counted⟩ := digits _ le
    exact ⟨⟨digit, false⟩, spelled.trans same.symm, counted.trans (Option.some.inj read)⟩
  next =>
  split at read
  next range =>
    obtain ⟨offset, le, same, rfl⟩ := exists_ofNat_of_range range
    obtain ⟨digit, spelled, counted⟩ := lower _ le
    exact ⟨⟨digit, false⟩, spelled.trans same.symm, counted.trans (Option.some.inj read)⟩
  next =>
  split at read
  next range =>
    obtain ⟨offset, le, same, rfl⟩ := exists_ofNat_of_range range
    obtain ⟨digit, spelled, counted⟩ := upper _ le
    exact ⟨⟨digit, true⟩, spelled.trans same.symm, counted.trans (Option.some.inj read)⟩
  next => cases read

end HexDigit

structure HexQuad where
  first : HexDigit
  second : HexDigit
  third : HexDigit
  fourth : HexDigit
  deriving DecidableEq

namespace HexQuad

def text (quad : HexQuad) : List Char :=
  [quad.first.char, quad.second.char, quad.third.char, quad.fourth.char]

@[simp] theorem length_text (quad : HexQuad) : quad.text.length = 4 := rfl

theorem text_oneLine (quad : HexQuad) : ∀ char ∈ quad.text, isLineEnd char = false := by
  simp [text, HexDigit.isLineEnd_char]

def code (quad : HexQuad) : Nat :=
  ((quad.first.value * 16 + quad.second.value) * 16 + quad.third.value) * 16 +
    quad.fourth.value

/-- The code point that a surrogate pair encodes -/
def pairCode (leading trailing : HexQuad) : Nat :=
  0x10000 + (leading.code - 0xD800) * 0x400 + (trailing.code - 0xDC00)

theorem code_lt (quad : HexQuad) : quad.code < 0x10000 := by
  have first := quad.first.value.isLt
  have second := quad.second.value.isLt
  have third := quad.third.value.isLt
  have fourth := quad.fourth.value.isLt
  unfold code
  omega

theorem hexQuad?_text (quad : HexQuad) (rest : List Char) :
    hexQuad? (quad.text ++ rest) = some quad.code := by
  simp [text, hexQuad?, HexDigit.hexValue?_char, code]

theorem exists_text_append {text : List Char} {code : Nat}
    (read : hexQuad? text = some code) :
    ∃ (quad : HexQuad) (rest : List Char), text = quad.text ++ rest ∧
      quad.code = code := by
  unfold hexQuad? at read
  split at read
  next _ _ _ _ rest =>
    obtain ⟨_, first, read⟩ := Option.bind_eq_some_iff.mp read
    obtain ⟨_, second, read⟩ := Option.bind_eq_some_iff.mp read
    obtain ⟨_, third, read⟩ := Option.bind_eq_some_iff.mp read
    obtain ⟨_, fourth, spelled⟩ := Option.bind_eq_some_iff.mp read
    obtain ⟨digit, rfl, rfl⟩ := HexDigit.exists_char_eq first
    obtain ⟨digit', rfl, rfl⟩ := HexDigit.exists_char_eq second
    obtain ⟨digit'', rfl, rfl⟩ := HexDigit.exists_char_eq third
    obtain ⟨last, rfl, rfl⟩ := HexDigit.exists_char_eq fourth
    exact ⟨⟨digit, digit', digit'', last⟩, rest, rfl, Option.some.inj spelled⟩
  next => cases read

end HexQuad

/-! ## Pieces -/

inductive LetterEscape where
  | quote
  | backslash
  | slash
  | backspace
  | formFeed
  | lineFeed
  | carriageReturn
  | tab
  deriving DecidableEq, Repr

namespace LetterEscape

def letter : LetterEscape → Char
  | quote => '"'
  | backslash => '\\'
  | slash => '/'
  | backspace => 'b'
  | formFeed => 'f'
  | lineFeed => 'n'
  | carriageReturn => 'r'
  | tab => 't'

def meant : LetterEscape → Char
  | quote => '"'
  | backslash => '\\'
  | slash => '/'
  | backspace => '\x08'
  | formFeed => '\x0c'
  | lineFeed => '\x0a'
  | carriageReturn => '\x0d'
  | tab => '\x09'

theorem simpleEscape?_letter (escape : LetterEscape) :
    simpleEscape? escape.letter = some escape.meant := by
  cases escape <;> rfl

theorem exists_letter_eq {letter char : Char}
    (simple : simpleEscape? letter = some char) :
    ∃ escape : LetterEscape, escape.letter = letter := by
  unfold simpleEscape? at simple
  split at simple
  · exact ⟨quote, rfl⟩
  · exact ⟨backslash, rfl⟩
  · exact ⟨slash, rfl⟩
  · exact ⟨backspace, rfl⟩
  · exact ⟨formFeed, rfl⟩
  · exact ⟨lineFeed, rfl⟩
  · exact ⟨carriageReturn, rfl⟩
  · exact ⟨tab, rfl⟩
  · cases simple

end LetterEscape

/-- What a string is written in, one piece for each character: the character as it is, an
escape of one letter, an escape of four digits that are no surrogate, or two such escapes
that are a surrogate pair. -/
inductive StringPiece where
  | plain (char : Char)
      (isPlain : char ≠ '"' ∧ char ≠ '\\' ∧ (char = '\t' ∨ 0x20 ≤ char.toNat))
  | letter (escape : LetterEscape)
  | unicode (quad : HexQuad) (isScalar : quad.code < 0xD800 ∨ 0xDFFF < quad.code)
  | surrogates (leading trailing : HexQuad)
      (isLeading : 0xD800 ≤ leading.code ∧ leading.code ≤ 0xDBFF)
      (isTrailing : 0xDC00 ≤ trailing.code ∧ trailing.code ≤ 0xDFFF)

namespace StringPiece

def text : StringPiece → List Char
  | plain char _ => [char]
  | letter escape => ['\\', escape.letter]
  | unicode quad _ => '\\' :: 'u' :: quad.text
  | surrogates leading trailing _ _ =>
      '\\' :: 'u' :: leading.text ++ '\\' :: 'u' :: trailing.text

theorem isValidChar_code {quad : HexQuad}
    (isScalar : quad.code < 0xD800 ∨ 0xDFFF < quad.code) :
    quad.code.isValidChar :=
  isScalar.imp_right fun above => ⟨above, Nat.lt_trans quad.code_lt (by decide)⟩

theorem isValidChar_pairCode {leading trailing : HexQuad}
    (isLeading : 0xD800 ≤ leading.code ∧ leading.code ≤ 0xDBFF)
    (isTrailing : 0xDC00 ≤ trailing.code ∧ trailing.code ≤ 0xDFFF) :
    (leading.pairCode trailing).isValidChar := by
  unfold HexQuad.pairCode Nat.isValidChar
  omega

def meant : StringPiece → Char
  | plain char _ => char
  | letter escape => escape.meant
  | unicode quad isScalar => Char.ofNatAux quad.code (isValidChar_code isScalar)
  | surrogates leading trailing isLeading isTrailing =>
      Char.ofNatAux (leading.pairCode trailing)
        (isValidChar_pairCode isLeading isTrailing)

theorem text_ne_nil (piece : StringPiece) : piece.text ≠ [] := by
  cases piece <;> exact nofun

theorem text_oneLine (piece : StringPiece) :
    ∀ char ∈ piece.text, isLineEnd char = false := by
  have backslash : ∀ char ∈ ['\\', 'u'], isLineEnd char = false := by simp [isLineEnd]
  cases piece with
  | plain char isPlain =>
      refine List.forall_mem_singleton.mpr ?_
      exact not_isLineEnd (fun char => char = '\t' ∨ 0x20 ≤ char.toNat) isPlain.2.2
        (by decide) (by decide)
  | letter escape => cases escape <;> simp [text, LetterEscape.letter, isLineEnd]
  | unicode quad => exact List.forall_mem_append.mpr ⟨backslash, quad.text_oneLine⟩
  | surrogates leading trailing =>
      have first := List.forall_mem_append.mpr ⟨backslash, leading.text_oneLine⟩
      exact List.forall_mem_append.mpr
        ⟨first, List.forall_mem_append.mpr ⟨backslash, trailing.text_oneLine⟩⟩

theorem head?_text (piece : StringPiece) (rest : List Char) :
    (piece.text ++ rest).head? ≠ some '"' := by
  cases piece with
  | plain char isPlain => simpa [text] using isPlain.1
  | letter | unicode | surrogates => simp [text]

end StringPiece

/-! ## Reading a piece -/

theorem ofNat_of_isValidChar {code : Nat} (valid : code.isValidChar) :
    Char.ofNat code = Char.ofNatAux code valid :=
  dif_pos valid

section

variable {quad leading trailing : HexQuad}

theorem readUnicode?_scalar (isScalar : quad.code < 0xD800 ∨ 0xDFFF < quad.code)
    (rest : List Char) :
    readUnicode? (quad.text ++ rest) =
      some ((StringPiece.unicode quad isScalar).meant, 4) := by
  have notLeading : isLeadingSurrogate quad.code = false := by
    simp only [isLeadingSurrogate, Bool.and_eq_false_iff, decide_eq_false_iff_not]
    omega
  have notTrailing : isTrailingSurrogate quad.code = false := by
    simp only [isTrailingSurrogate, Bool.and_eq_false_iff, decide_eq_false_iff_not]
    omega
  refine Option.bind_eq_some_iff.mpr ⟨quad.code, quad.hexQuad?_text rest, ?_⟩
  rw [notLeading, notTrailing,
    ofNat_of_isValidChar (StringPiece.isValidChar_code isScalar)]
  rfl

theorem readUnicode?_surrogates
    (isLeading : 0xD800 ≤ leading.code ∧ leading.code ≤ 0xDBFF)
    (isTrailing : 0xDC00 ≤ trailing.code ∧ trailing.code ≤ 0xDFFF) (rest : List Char) :
    readUnicode? (leading.text ++ '\\' :: 'u' :: (trailing.text ++ rest)) =
      some ((StringPiece.surrogates leading trailing isLeading isTrailing).meant,
        10) := by
  have isLeading' : isLeadingSurrogate leading.code = true := by
    simpa [isLeadingSurrogate] using isLeading
  have isTrailing' : isTrailingSurrogate trailing.code = true := by
    simpa [isTrailingSurrogate] using isTrailing
  have combined :
      combineSurrogates leading.code trailing.code = leading.pairCode trailing := rfl
  have second : (leading.text ++ '\\' :: 'u' :: (trailing.text ++ rest)).drop 4 =
      '\\' :: 'u' :: (trailing.text ++ rest) := rfl
  refine Option.bind_eq_some_iff.mpr ⟨leading.code, leading.hexQuad?_text _, ?_⟩
  rw [if_pos isLeading', second]
  refine Option.bind_eq_some_iff.mpr ⟨trailing.code, trailing.hexQuad?_text rest, ?_⟩
  rw [isTrailing', combined,
    ofNat_of_isValidChar (StringPiece.isValidChar_pairCode isLeading isTrailing)]
  rfl

end

theorem readEscape_unicode {text : List Char} {meant : Char} {length : Nat}
    (read : readUnicode? text = some (meant, length)) :
    readEscape ('u' :: text) = .ok (meant, length + 1) := by
  have noLetter : simpleEscape? 'u' = none := rfl
  simp [readEscape, noLetter, read]

theorem readEscape_piece {piece : StringPiece} {escape : List Char}
    (isEscape : piece.text = '\\' :: escape)
    (rest : List Char) :
    readEscape (escape ++ rest) = .ok (piece.meant, escape.length) := by
  cases piece with
  | plain char isPlain =>
      cases isEscape
      exact absurd rfl isPlain.2.1
  | letter escape =>
      cases isEscape
      simp [readEscape, escape.simpleEscape?_letter, StringPiece.meant]
  | unicode quad isScalar =>
      cases isEscape
      exact readEscape_unicode (readUnicode?_scalar isScalar rest)
  | surrogates leading trailing isLeading isTrailing =>
      cases isEscape
      refine readEscape_unicode ?_
      simpa using readUnicode?_surrogates isLeading isTrailing rest

theorem readQuoted_append (escape rest : List Char) :
    readQuoted escape.length (escape ++ rest) =
      StringContent.precede escape [] (readQuoted 0 rest) := by
  induction escape with
  | nil => exact (precede_nil _).symm
  | cons char escape induction =>
      rw [List.length_cons, List.cons_append, readQuoted, induction, precede_precede]
      rfl

theorem readQuoted_escape {piece : StringPiece} {escape : List Char}
    (isEscape : piece.text = '\\' :: escape) (rest : List Char) :
    readQuoted 0 (piece.text ++ rest) =
      StringContent.precede piece.text [piece.meant] (readQuoted 0 rest) := by
  have unfolded : readQuoted 0 ('\\' :: (escape ++ rest)) =
      StringContent.precede ['\\'] [piece.meant]
        (readQuoted escape.length (escape ++ rest)) := by
    simp [readQuoted, isLineEnd, readEscape_piece isEscape rest]
  rw [isEscape, List.cons_append, unfolded, readQuoted_append, precede_precede]
  rfl

theorem readQuoted_piece (piece : StringPiece) (rest : List Char) :
    readQuoted 0 (piece.text ++ rest) =
      StringContent.precede piece.text [piece.meant] (readQuoted 0 rest) := by
  cases piece with
  | plain char isPlain =>
      have notEnd : isLineEnd char = false :=
        (StringPiece.plain char isPlain).text_oneLine char (List.mem_singleton_self char)
      obtain ⟨notQuote, notBackslash, visible⟩ := isPlain
      have allowed : isForbiddenControl char = false := by
        rcases visible with rfl | visible
        · rfl
        · simp [isForbiddenControl, Nat.not_lt.mpr visible]
      simp [StringPiece.text, StringPiece.meant, readQuoted, notQuote, notEnd,
        notBackslash, allowed]
  | letter | unicode | surrogates => exact readQuoted_escape rfl rest

/-- A row of pieces is read as what they stand for. -/
theorem readQuoted_pieces (pieces : List StringPiece) (rest : List Char) :
    readQuoted 0 (pieces.flatMap StringPiece.text ++ rest) =
      StringContent.precede (pieces.flatMap StringPiece.text)
        (pieces.map StringPiece.meant) (readQuoted 0 rest) := by
  induction pieces with
  | nil => exact (precede_nil _).symm
  | cons piece pieces induction =>
      rw [List.flatMap_cons, List.append_assoc, readQuoted_piece, induction,
        precede_precede]
      rfl

theorem readQuoted_closed (pieces : List StringPiece) (rest : List Char) :
    readQuoted 0 (pieces.flatMap StringPiece.text ++ '"' :: rest) =
      .ok ⟨pieces.map StringPiece.meant,
        pieces.flatMap StringPiece.text ++ ['"'], rest⟩ := by
  have closed : readQuoted 0 ('"' :: rest) = .ok ⟨[], ['"'], rest⟩ := rfl
  rw [readQuoted_pieces, closed]
  simp [StringContent.precede]

/-! ## Taking a string apart -/

theorem exists_piece_of_readUnicode? {text : List Char} {read : Char × Nat}
    (outcome : readUnicode? text = some read) :
    ∃ (piece : StringPiece) (sequence rest : List Char),
      piece.text = '\\' :: 'u' :: sequence ∧ text = sequence ++ rest := by
  obtain ⟨code, spelled, outcome⟩ := Option.bind_eq_some_iff.mp outcome
  obtain ⟨quad, rest, rfl, rfl⟩ := HexQuad.exists_text_append spelled
  have behind : (quad.text ++ rest).drop 4 = rest := rfl
  rw [behind] at outcome
  by_cases isLeading : isLeadingSurrogate quad.code = true
  · rw [if_pos isLeading] at outcome
    split at outcome
    next second =>
      obtain ⟨code, spelled', guarded⟩ := Option.bind_eq_some_iff.mp outcome
      obtain ⟨trailing, rest, rfl, rfl⟩ := HexQuad.exists_text_append spelled'
      cases isTrailing : isTrailingSurrogate trailing.code with
      | false =>
          rw [isTrailing] at guarded
          cases guarded
      | true =>
          have isLeading' : 0xD800 ≤ quad.code ∧ quad.code ≤ 0xDBFF := by
            simpa [isLeadingSurrogate] using isLeading
          have isTrailing' : 0xDC00 ≤ trailing.code ∧ trailing.code ≤ 0xDFFF := by
            simpa [isTrailingSurrogate] using isTrailing
          exact ⟨.surrogates quad trailing isLeading' isTrailing', _, rest, rfl, by simp⟩
    next => cases outcome
  · rw [if_neg isLeading] at outcome
    have notTrailing : isTrailingSurrogate quad.code = false := by
      cases isTrailing : isTrailingSurrogate quad.code with
      | false => rfl
      | true =>
          rw [isTrailing] at outcome
          cases outcome
    have isScalar : quad.code < 0xD800 ∨ 0xDFFF < quad.code := by
      simp only [isLeadingSurrogate, isTrailingSurrogate, Bool.and_eq_true,
        Bool.and_eq_false_iff,
        decide_eq_true_eq, decide_eq_false_iff_not] at isLeading notTrailing
      omega
    exact ⟨.unicode quad isScalar, _, rest, rfl, rfl⟩

theorem exists_piece_of_readEscape {text : List Char} {read : Char × Nat}
    (outcome : readEscape text = .ok read) :
    ∃ (piece : StringPiece) (escape rest : List Char), piece.text = '\\' :: escape ∧
      text = escape ++ rest := by
  cases text with
  | nil => cases outcome
  | cons letter rest =>
      simp only [readEscape] at outcome
      split at outcome
      next simple =>
        obtain ⟨escape, rfl⟩ := LetterEscape.exists_letter_eq simple
        exact ⟨.letter escape, _, rest, rfl, rfl⟩
      next =>
      split at outcome
      next isU =>
        subst isU
        split at outcome
        next unicode =>
          obtain ⟨piece, sequence, rest, isEscape, rfl⟩ :=
            exists_piece_of_readUnicode? unicode
          exact ⟨piece, _, rest, isEscape, rfl⟩
        next => cases outcome
      next => cases outcome

theorem readEscape_local {text : List Char} {char : Char} {length : Nat}
    (read : readEscape text = .ok (char, length)) :
    (∀ inside ∈ text.take length, isLineEnd inside = false) ∧
      ∀ rest, readEscape (text.take length ++ rest) = .ok (char, length) := by
  obtain ⟨piece, escape, rest, isEscape, rfl⟩ := exists_piece_of_readEscape read
  have again := readEscape_piece isEscape
  rw [again rest] at read
  cases read
  have oneLine := piece.text_oneLine
  rw [isEscape] at oneLine
  rw [List.take_left]
  exact ⟨(List.forall_mem_cons.mp oneLine).2, again⟩

theorem exists_piece_of_readQuoted {text : List Char} {content : StringContent}
    (read : readQuoted 0 text = .ok content) :
    (text = '"' :: content.rest ∧ content = ⟨[], ['"'], content.rest⟩) ∨
      ∃ (piece : StringPiece) (rest : List Char), text = piece.text ++ rest := by
  cases text with
  | nil => cases read
  | cons char rest =>
      simp only [readQuoted] at read
      split at read
      next isQuote =>
        subst isQuote
        cases read
        exact .inl ⟨rfl, rfl⟩
      next notQuote =>
      split at read
      next => cases read
      next notEnd =>
      split at read
      next isBackslash =>
        subst isBackslash
        split at read
        next escape =>
          obtain ⟨piece, _, rest, isEscape, rfl⟩ := exists_piece_of_readEscape escape
          exact .inr ⟨piece, rest, by rw [isEscape, List.cons_append]⟩
        next => cases read
      next notBackslash =>
      split at read
      next => cases read
      next allowed =>
        have visible : char = '\t' ∨ 0x20 ≤ char.toNat := by
          rcases Nat.lt_or_ge char.toNat 0x20 with isControl | visible
          · refine .inl (Decidable.byContradiction fun notTab => allowed ?_)
            simp_all [isForbiddenControl, isLineEnd]
          · exact .inr visible
        exact .inr ⟨.plain char ⟨notQuote, notBackslash, visible⟩, rest, rfl⟩

/-- What is read up to the closing quote is a row of pieces. -/
theorem exists_pieces_of_readQuoted {text : List Char} {content : StringContent}
    (read : readQuoted 0 text = .ok content) :
    ∃ pieces : List StringPiece, text =
      pieces.flatMap StringPiece.text ++ '"' :: content.rest ∧
      content = ⟨pieces.map StringPiece.meant, pieces.flatMap StringPiece.text ++ ['"'],
        content.rest⟩ := by
  generalize size : text.length = count
  induction count using Nat.strongRecOn generalizing text content with
  | ind count induction =>
      rcases exists_piece_of_readQuoted read with ⟨whole, same⟩ | ⟨piece, rest, rfl⟩
      · exact ⟨[], whole, same⟩
      · rw [readQuoted_piece] at read
        obtain ⟨inner, behind, rfl⟩ := precede_eq_ok.mp read
        have shorter : rest.length < count := by
          rw [← size, List.length_append]
          have := List.length_pos_iff.mpr piece.text_ne_nil
          omega
        obtain ⟨pieces, whole, same⟩ := induction _ shorter behind rfl
        refine ⟨piece :: pieces, by rw [whole, List.flatMap_cons, List.append_assoc], ?_⟩
        rw [same, List.flatMap_cons, List.append_assoc]
        rfl

end GraphQL
