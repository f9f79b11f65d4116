import GraphQL.Proofs.Scanning.Words

/-! Strings on one line, scanned by byte offsets.

An escape is passed over by a fixed number of bytes, and what it stands for is looked up
in slices at fixed distances. None of them goes beyond the text, or ends within a
character, unless nothing is sliced there. -/

namespace GraphQL.Scanning

open Text

def isHexDigit (char : Char) : Bool := (hexValue? char).isSome

def parseHex? (digits : List Char) : Option Nat :=
  digits.foldlM (fun code digit => (hexValue? digit).map (code * 16 + ·)) 0

def charOfCode? (code : Nat) : Option Char :=
  if code.isValidChar then some (Char.ofNat code) else none

section

variable (text : List Char)

/-- The number that four bytes spell in hexadecimal, if they are such digits
and a slice -/
def scanHexQuad? (offset : Nat) : Checked (Option Nat) := do
  match ← sliceIfWhole text offset (offset + 4) with
  | some digits =>
      return if (bytes digits).all (isByteOf isHexDigit) then parseHex? digits else none
  | none => return none

def scanUnicode? (offset : Nat) : Checked (Option (Char × Nat)) := do
  match ← scanHexQuad? text (offset + 2) with
  | none => return none
  | some code =>
      match charOfCode? code with
      | some char => return some (char, 6)
      | none =>
          if isLeadingSurrogate code && ['\\', 'u'].isPrefixOf
            (← sliceFrom text (offset + 6)) then
            match ← scanHexQuad? text (offset + 8) with
            | none => return none
            | some trailing =>
                if isTrailingSurrogate trailing then
                  return (charOfCode? (combineSurrogates code trailing)).map (·, 12)
                else return none
          else return none

/-- Quotes the six bytes that a Unicode escape should take, or those left,
if they are a slice. -/
def quoteEscape (offset : Nat) : Checked String := do
  let sequence ← sliceIfWhole text offset (min (offset + 6) (byteSize text))
  return (sequence.map String.ofList).getD "\\u"

/-- The character that the escape with its backslash at an offset stands for, and
how many bytes that takes -/
def scanEscape (offset : Nat) : Checked (Char × Nat) := do
  match ← charAt text (offset + 1) with
  | none => fault .unterminatedString (offset + 1)
  | some letter =>
      match simpleEscape? letter with
      | some char => return (char, 2)
      | none =>
          if letter = 'u' then
            match ← scanUnicode? text offset with
            | some scanned => return scanned
            | none => fault (.invalidUnicodeEscape (← quoteEscape text offset)) offset
          else fault (.invalidEscape letter) offset

/-- Goes on to the closing quote, and gives what is in front of it and the offset behind
it. What has been passed since the offset `chunk` stands for itself. -/
def scanQuoted : (rounds chunk offset : Nat) → (value : List Char) →
    Checked (List Char × Nat)
  | 0, _, _, _ => .error .endless
  | rounds + 1, chunk, offset, value => do
      match ← charAt text offset with
      | none => fault .unterminatedString offset
      | some char =>
          if char = '"' then return (value ++ (← slice text chunk offset), offset + 1)
          else if isLineEnd char then fault .unterminatedString offset
          else if char = '\\' then
            let passed ← slice text chunk offset
            let (meant, length) ← scanEscape text offset
            scanQuoted rounds (offset + length) (offset + length)
              (value ++ passed ++ [meant])
          else if isForbiddenControl char then fault (.invalidStringCharacter char) offset
          else scanQuoted rounds chunk (offset + char.utf8Size) value

def scanString (start : Nat) : Checked (Lexeme × Nat) := do
  let (value, stop) ← scanQuoted text (byteSize text + 1) (start + 1) (start + 1) []
  return (.string (String.ofList value), stop)

end

variable {text rest : List Char} {start chunk offset : Nat}

/-! ## Digits -/

theorem utf8Size_hexDigit (digit : HexDigit) : digit.char.utf8Size = 1 := by
  obtain ⟨value, isUpper⟩ := digit
  revert value isUpper
  decide

theorem byteSize_hexQuad (quad : HexQuad) : byteSize quad.text = 4 := by
  simp [HexQuad.text, utf8Size_hexDigit]

theorem isHexDigit_char (digit : HexDigit) : isHexDigit digit.char = true := by
  rw [isHexDigit, digit.hexValue?_char, Option.isSome_some]

theorem exists_hexDigit {char : Char} (isDigit : isHexDigit char = true) :
    ∃ digit : HexDigit, digit.char = char := by
  obtain ⟨value, read⟩ := Option.isSome_iff_exists.mp isDigit
  obtain ⟨digit, same, _⟩ := HexDigit.exists_char_eq read
  exact ⟨digit, same⟩

theorem isAscii_isHexDigit : IsAscii isHexDigit := fun char isDigit => by
  obtain ⟨digit, rfl⟩ := exists_hexDigit isDigit
  exact utf8Size_hexDigit digit

theorem exists_hexQuad {digits : List Char} (all : digits.all isHexDigit = true)
    (size : byteSize digits = 4) :
    ∃ quad : HexQuad, digits = quad.text := by
  have single : ∀ char ∈ digits, char.utf8Size = 1 := fun char member =>
    isAscii_isHexDigit char (List.all_eq_true.mp all char member)
  have length : digits.length = 4 := (byteSize_eq_length single).symm.trans size
  match digits, length with
  | [first, second, third, fourth], _ =>
      simp only [List.all_cons, List.all_nil, Bool.and_true, Bool.and_eq_true] at all
      obtain ⟨first, rfl⟩ := exists_hexDigit all.1
      obtain ⟨second, rfl⟩ := exists_hexDigit all.2.1
      obtain ⟨third, rfl⟩ := exists_hexDigit all.2.2.1
      obtain ⟨fourth, rfl⟩ := exists_hexDigit all.2.2.2
      exact ⟨⟨first, second, third, fourth⟩, rfl⟩

theorem parseHex?_text (quad : HexQuad) : parseHex? quad.text = some quad.code := by
  simp [parseHex?, HexQuad.text, HexDigit.hexValue?_char, HexQuad.code]

theorem all_hexQuad (quad : HexQuad) : quad.text.all isHexDigit = true := by
  simp [HexQuad.text, isHexDigit_char]

theorem cut?_hexQuad (quad : HexQuad) (rest : List Char) :
    cut? 4 (quad.text ++ rest) = some (quad.text, rest) :=
  cut?_eq_some.mpr ⟨rfl, (byteSize_hexQuad quad).symm⟩

/-- Four bytes are digits just if four characters are. -/
theorem scanHexQuad?_eq (found : sliceFrom text offset = .ok rest) :
    scanHexQuad? text offset = .ok (hexQuad? rest) := by
  rw [scanHexQuad?, sliceIfWhole_eq found, ok_bind]
  cases spelled : hexQuad? rest with
  | some code =>
      obtain ⟨quad, rest, rfl, rfl⟩ := HexQuad.exists_text_append spelled
      simp only [cut?_hexQuad, Option.map_some, isAscii_isHexDigit.all_bytes, all_hexQuad,
        if_true, parseHex?_text]
      rfl
  | none =>
      cases isCut : cut? 4 rest with
      | none => rfl
      | some parts =>
          obtain ⟨digits, rest⟩ := parts
          obtain ⟨rfl, size⟩ := cut?_eq_some.mp isCut
          simp only [Option.map_some, isAscii_isHexDigit.all_bytes]
          cases all : digits.all isHexDigit with
          | false => rfl
          | true =>
              obtain ⟨quad, rfl⟩ := exists_hexQuad all size.symm
              rw [HexQuad.hexQuad?_text] at spelled
              cases spelled

/-! ## Escapes -/

theorem charOfCode?_of_valid {code : Nat} (valid : code.isValidChar) :
    charOfCode? code = some (Char.ofNatAux code valid) := by
  rw [charOfCode?, if_pos valid, ofNat_of_isValidChar valid]

theorem readUnicode?_alone {quad : HexQuad}
    (alone : ∀ second, isLeadingSurrogate quad.code = true → rest ≠ '\\' :: 'u' :: second)
    (isSurrogate : ¬ (quad.code < 0xD800 ∨ 0xDFFF < quad.code)) :
    readUnicode? (quad.text ++ rest) = none := by
  have behind : (quad.text ++ rest).drop 4 = rest := rfl
  refine Option.eq_none_iff_forall_ne_some.mpr fun read outcome => ?_
  obtain ⟨code, spelled, outcome⟩ := Option.bind_eq_some_iff.mp outcome
  rw [quad.hexQuad?_text] at spelled
  cases spelled
  rw [behind] at outcome
  by_cases isLeading : isLeadingSurrogate quad.code = true
  · rw [if_pos isLeading] at outcome
    split at outcome
    next => exact alone _ isLeading rfl
    next => cases outcome
  · have isTrailing : isTrailingSurrogate quad.code = true := by
      simp only [isLeadingSurrogate, isTrailingSurrogate, Bool.and_eq_true,
        decide_eq_true_eq] at isLeading ⊢
      omega
    rw [if_neg isLeading, isTrailing] at outcome
    cases outcome

theorem readUnicode?_leading {quad : HexQuad}
    (isLeading : isLeadingSurrogate quad.code = true) (second : List Char) :
    readUnicode? (quad.text ++ '\\' :: 'u' :: second) = do
      let trailing ← hexQuad? second
      guard (isTrailingSurrogate trailing)
      return (Char.ofNat (combineSurrogates quad.code trailing), 10) := by
  unfold readUnicode?
  rw [quad.hexQuad?_text, Option.bind_eq_bind, Option.bind_some, if_pos isLeading]
  rfl

theorem scanUnicode?_eq (found : sliceFrom text offset = .ok ('\\' :: 'u' :: rest)) :
    scanUnicode? text offset =
      .ok ((readUnicode? rest).map fun (char, length) => (char, length + 2)) := by
  have digits : sliceFrom text (offset + 2) = .ok rest :=
    sliceFrom_cons (sliceFrom_cons found)
  rw [scanUnicode?, scanHexQuad?_eq digits, ok_bind]
  cases spelled : hexQuad? rest with
  | none =>
      rw [readUnicode?, spelled]
      rfl
  | some code =>
      obtain ⟨quad, rest, rfl, rfl⟩ := HexQuad.exists_text_append spelled
      have behind : sliceFrom text (offset + 6) = .ok rest := by
        have behind := sliceFrom_behind digits
        rwa [byteSize_hexQuad] at behind
      by_cases isScalar : quad.code < 0xD800 ∨ 0xDFFF < quad.code
      · have isChar :
            charOfCode? quad.code = some (StringPiece.unicode quad isScalar).meant :=
          charOfCode?_of_valid (StringPiece.isValidChar_code isScalar)
        simp only [isChar]
        rw [readUnicode?_scalar isScalar]
        rfl
      · have isSurrogate : ¬ quad.code.isValidChar := by
          unfold Nat.isValidChar
          omega
        have noChar : charOfCode? quad.code = none := if_neg isSurrogate
        simp only [noChar, behind, ok_bind]
        by_cases second : isLeadingSurrogate quad.code = true ∧
          ∃ second, rest = '\\' :: 'u' :: second
        · obtain ⟨isLeading, second, rfl⟩ := second
          have digits' : sliceFrom text (offset + 8) = .ok second :=
            sliceFrom_cons (sliceFrom_cons behind)
          have begins :
              (isLeadingSurrogate quad.code && ['\\', 'u'].isPrefixOf
                ('\\' :: 'u' :: second)) = true := by
            simp [isLeading]
          rw [begins, if_pos rfl, scanHexQuad?_eq digits', ok_bind]
          cases spelled' : hexQuad? second with
          | none =>
              rw [readUnicode?_leading isLeading, spelled']
              rfl
          | some code =>
              obtain ⟨trailing, rest, rfl, rfl⟩ := HexQuad.exists_text_append spelled'
              cases isTrailing : isTrailingSurrogate trailing.code with
              | false =>
                  simp only [isTrailing]
                  rw [readUnicode?_leading isLeading, spelled', Option.bind_eq_bind,
                    Option.bind_some, isTrailing]
                  rfl
              | true =>
                  have leads : 0xD800 ≤ quad.code ∧ quad.code ≤ 0xDBFF := by
                    simpa [isLeadingSurrogate] using isLeading
                  have trails : 0xDC00 ≤ trailing.code ∧ trailing.code ≤ 0xDFFF := by
                    simpa [isTrailingSurrogate] using isTrailing
                  have combined :
                      charOfCode? (combineSurrogates quad.code trailing.code) =
                      some (StringPiece.surrogates quad trailing leads trails).meant :=
                    charOfCode?_of_valid (StringPiece.isValidChar_pairCode leads trails)
                  rw [readUnicode?_surrogates leads trails]
                  simp only [isTrailing, combined]
                  rfl
        · have alone :
              (isLeadingSurrogate quad.code && ['\\', 'u'].isPrefixOf rest) = false := by
            refine Bool.eq_false_iff.mpr fun begins => ?_
            obtain ⟨isLeading, isPrefix⟩ := Bool.and_eq_true_iff.mp begins
            obtain ⟨more, rfl⟩ := List.isPrefixOf_iff_prefix.mp isPrefix
            exact second ⟨isLeading, more, rfl⟩
          rw [alone, readUnicode?_alone
            (fun more isLeading equal => second ⟨isLeading, more, equal⟩) isScalar]
          rfl

/-- A text is cut after as many bytes as there are up to a bound, unless
that is within a character. -/
theorem cut?_min (size : Nat) (text : List Char) :
    (cut? (min size (byteSize text)) text).map (·.1) =
    if (takeBytes size text).2 then some (takeBytes size text).1 else none := by
  fun_induction takeBytes size text with
  | case1 size => simp [cut?]
  | case2 char rest => simp [cut?]
  | case3 size char rest positive within =>
      obtain ⟨size, rfl⟩ := Nat.exists_eq_succ_of_ne_zero positive
      have least : min (size + 1) (byteSize (char :: rest)) = size + 1 := by
        rw [byteSize_cons]
        omega
      rw [Nat.succ_eq_add_one, least, cut?, if_neg (by omega)]
      rfl
  | case4 size char rest positive behind taken aligned same induction =>
      have least : min size (byteSize (char :: rest)) =
          char.utf8Size + min (size - char.utf8Size) (byteSize rest) := by
        rw [byteSize_cons]
        omega
      rw [same] at induction
      rw [least, cut?_cons, Option.map_map]
      have longer := congrArg (Option.map (char :: ·)) induction
      rw [Option.map_map] at longer
      cases aligned <;> exact longer

theorem quoteEscape_eq (found : sliceFrom text offset = .ok rest) :
    quoteEscape text offset = .ok (quoteUnicodeEscape rest) := by
  have stop : min (offset + 6) (byteSize text) = offset + min 6 (byteSize rest) := by
    rw [size_eq found]
    omega
  rw [quoteEscape, stop, sliceIfWhole_eq found, ok_bind, cut?_min, quoteUnicodeEscape]
  obtain ⟨sequence, aligned⟩ := takeBytes 6 rest
  cases aligned <;> rfl

theorem scanEscape_eq (found : sliceFrom text offset = .ok ('\\' :: rest)) :
    scanEscape text offset =
      placed offset (fun (char, length) => (char, length + 1)) (readEscape rest) := by
  have behind : sliceFrom text (offset + 1) = .ok rest := sliceFrom_cons found
  rw [scanEscape, charAt_eq behind, ok_bind]
  cases rest with
  | nil => rfl
  | cons letter rest =>
      simp only [List.head?_cons, readEscape]
      cases simpleEscape? letter with
      | some char => rfl
      | none =>
          by_cases isUnicode : letter = 'u'
          · subst isUnicode
            simp only [if_true, scanUnicode?_eq found, ok_bind, quoteEscape_eq found]
            cases readUnicode? rest <;> rfl
          · simp only [if_neg isUnicode]
            rfl

example : scanEscape "\\u000é".toList 0 =
    .error (.fault ⟨.invalidUnicodeEscape "\\u", 0⟩) := by rfl

/-! ## Strings -/

theorem byteSize_escape {piece : StringPiece} {escape : List Char}
    (isEscape : piece.text = '\\' :: escape) :
    byteSize escape = escape.length := by
  have quad : ∀ (quad : HexQuad), ∀ char ∈ quad.text, char.utf8Size = 1 := by
    simp [HexQuad.text, utf8Size_hexDigit]
  have single : ∀ char ∈ piece.text, char.utf8Size = 1 := by
    have opening : ∀ char ∈ ['\\', 'u'], char.utf8Size = 1 :=
      List.forall_mem_cons.mpr ⟨rfl, List.forall_mem_singleton.mpr rfl⟩
    cases piece with
    | plain char isPlain =>
        cases isEscape
        exact absurd rfl isPlain.2.1
    | letter escape =>
        refine List.forall_mem_cons.mpr ⟨rfl, List.forall_mem_singleton.mpr ?_⟩
        cases escape <;> rfl
    | unicode only => exact List.forall_mem_append.mpr ⟨opening, quad only⟩
    | surrogates leading trailing =>
        have first := List.forall_mem_append.mpr ⟨opening, quad leading⟩
        exact List.forall_mem_append.mpr
          ⟨first, List.forall_mem_append.mpr ⟨opening, quad trailing⟩⟩
  rw [isEscape] at single
  exact byteSize_eq_length (List.forall_mem_cons.mp single).2

theorem placed_precede {α : Type} (start : Nat) (result : StringContent → α)
    (covered meant : List Char)
    (outcome : Except Misread StringContent) :
    placed start result (StringContent.precede covered meant outcome) =
      placed (start + byteSize covered)
        (fun content => result ⟨meant ++ content.value, covered ++ content.text,
          content.rest⟩) outcome := by
  cases outcome with
  | error misread => simp [StringContent.precede, Misread.after, Nat.add_assoc]
  | ok content => rfl

theorem scanQuoted_eq {rounds : Nat} {passed : List Char}
    (found : sliceFrom text chunk = .ok (passed ++ rest))
    (enough : byteSize rest < rounds) (value : List Char) :
    scanQuoted text rounds chunk (chunk + byteSize passed) value =
      placed (chunk + byteSize passed) (fun content =>
        (value ++ passed ++ content.value,
          chunk + byteSize passed + byteSize content.text)) (readQuoted 0 rest) := by
  induction rounds generalizing chunk passed rest value with
  | zero => cases enough
  | succ rounds induction =>
      have behind := sliceFrom_behind found
      rw [scanQuoted, charAt_eq behind, ok_bind]
      cases rest with
      | nil => rfl
      | cons char rest =>
          have positive := char.utf8Size_pos
          rw [byteSize_cons] at enough
          simp only [List.head?_cons, readQuoted]
          split
          next isQuote =>
            subst isQuote
            rw [slice_eq found, placed_ok, List.append_nil]
            rfl
          next notQuote =>
          split
          next => rfl
          next =>
          split
          next isBackslash =>
            subst isBackslash
            rw [slice_eq found, ok_bind, scanEscape_eq behind]
            cases read : readEscape rest with
            | error misread => rfl
            | ok meant =>
                obtain ⟨piece, escape, rest, isEscape, rfl⟩ :=
                  exists_piece_of_readEscape read
                cases (readEscape_piece isEscape rest).symm.trans read
                have found' :
                    sliceFrom text (chunk + byteSize passed + (escape.length + 1)) =
                      .ok ([] ++ rest) := by
                  have found' := sliceFrom_behind (sliceFrom_cons behind)
                  rw [byteSize_escape isEscape, Nat.add_assoc,
                    Nat.add_comm _ escape.length] at found'
                  exact found'
                rw [byteSize_append] at enough
                have scanned :=
                  induction found' (by omega) (value ++ passed ++ [piece.meant])
                change scanQuoted _ _ _ _ _ = placed _ _ (StringContent.precede _ _ _)
                have one : '\\'.utf8Size = 1 := rfl
                rw [readQuoted_append, precede_precede, placed_precede]
                simpa [one, byteSize_escape isEscape, Nat.add_assoc, Nat.add_comm 1,
                  Nat.add_left_comm 1] using scanned
          next =>
          split
          next => rfl
          next =>
            have found' : sliceFrom text chunk = .ok ((passed ++ [char]) ++ rest) := by
              simpa using found
            have scanned := induction found' (by omega) value
            rw [placed_precede]
            simpa [Nat.add_assoc] using scanned

theorem scanString_eq (found : sliceFrom text start = .ok ('"' :: rest)) :
    scanString text start = placedToken start (readString rest) := by
  have behind : sliceFrom text (start + 1) = .ok ([] ++ rest) := sliceFrom_cons found
  have enough : byteSize rest < byteSize text + 1 := by
    rw [size_eq found, byteSize_cons]
    omega
  have scanned := scanQuoted_eq behind enough []
  rw [byteSize_nil, Nat.add_zero] at scanned
  rw [scanString, scanned, readString]
  have one : '"'.utf8Size = 1 := rfl
  cases readQuoted 0 rest with
  | error misread => simp [placedToken, Misread.after, Nat.add_assoc, one]
  | ok content => simp [placedToken, Nat.add_assoc, one]

end GraphQL.Scanning
