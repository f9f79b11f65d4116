import GraphQL.Proofs.Lexing.Cutting
import GraphQL.Proofs.Lexing.Misread

/-! Block strings end at the first three quotes that no backslash escapes.

The text in front of these quotes decides alone whether the string can be read, and what
it says. -/

namespace GraphQL

open Text

variable {char : Char} {text rest content : List Char}

/-! ## The closing quotes -/

/-- How many characters stand in front of the first three quotes that no
backslash escapes -/
def closesAt? : List Char → Option Nat
  | [] => none
  | '"' :: '"' :: '"' :: _ => some 0
  | '\\' :: '"' :: '"' :: '"' :: rest => (closesAt? rest).map (· + 4)
  | _ :: rest => (closesAt? rest).map (· + 1)

example : closesAt? "\\\"\"\"\\a\"\"\"\"".toList = some 6 := by decide

/-- Three quotes in place of each escape of three quotes -/
def unescape : List Char → List Char
  | [] => []
  | '\\' :: '"' :: '"' :: '"' :: rest => tripleQuote ++ unescape rest
  | char :: rest => char :: unescape rest

theorem closesAt?_cons (notQuotes : ∀ more, char = '"' → rest ≠ '"' :: '"' :: more)
    (notEscape : ∀ more, char = '\\' → rest ≠ '"' :: '"' :: '"' :: more) :
    closesAt? (char :: rest) = (closesAt? rest).map (· + 1) := by
  rw [closesAt?.eq_def]
  split
  next equal => cases equal
  next equal =>
    cases equal
    exact (notQuotes _ rfl rfl).elim
  next equal =>
    cases equal
    exact (notEscape _ rfl rfl).elim
  next equal =>
    cases equal
    rfl

theorem unescape_cons
    (notEscape : ∀ more, char = '\\' → rest ≠ '"' :: '"' :: '"' :: more) :
    unescape (char :: rest) = char :: unescape rest := by
  rw [unescape.eq_def]
  split
  next equal => cases equal
  next equal =>
    cases equal
    exact (notEscape _ rfl rfl).elim
  next equal =>
    cases equal
    rfl

/-! ## Reading up to them -/

theorem closesAt?_of_readBlock {read : StringContent}
    (outcome : readBlock text = .ok read) :
    ∃ inner, read.text = inner ++ tripleQuote ∧ read.value = unescape inner ∧
      closesAt? text = some inner.length ∧
      ∀ char ∈ inner, isForbiddenControl char = false := by
  fun_induction readBlock text generalizing read with
  | case1 => cases outcome
  | case2 rest =>
      cases outcome
      exact ⟨[], rfl, rfl, rfl, List.forall_mem_nil _⟩
  | case3 rest induction =>
      obtain ⟨behind, outcome', rfl⟩ := precede_eq_ok.mp outcome
      obtain ⟨inner, text', value, closes, allowed⟩ := induction outcome'
      refine ⟨'\\' :: tripleQuote ++ inner, ?_, ?_, ?_, ?_⟩
      · rw [text', List.append_assoc]
      · rw [value]
        rfl
      · rw [closesAt?, closes]
        rfl
      · exact List.forall_mem_append.mpr ⟨by
          simp [tripleQuote, isForbiddenControl], allowed⟩
  | case4 => cases outcome
  | case5 char rest notQuotes notEscape allowed induction =>
      obtain ⟨behind, outcome', rfl⟩ := precede_eq_ok.mp outcome
      obtain ⟨inner, text', value, closes, others⟩ := induction outcome'
      have whole := (readBlock_covers outcome').2.whole
      have notEscape' : ∀ more, char = '\\' → inner ≠ '"' :: '"' :: '"' :: more := by
        rintro more isBackslash rfl
        rw [text'] at whole
        exact notEscape _ isBackslash whole
      refine ⟨char :: inner, ?_, ?_, ?_, ?_⟩
      · rw [text']
        rfl
      · rw [value, unescape_cons notEscape']
        rfl
      · rw [closesAt?_cons notQuotes notEscape, closes]
        rfl
      · exact List.forall_mem_cons.mpr ⟨by simpa using allowed, others⟩

/-- Wherever the string would be closed, a forbidden character stands in front. -/
def IsSpoiled (text : List Char) : Prop :=
  ∀ size, closesAt? text = some size →
    ∃ char ∈ text.take size, isForbiddenControl char = true

theorem IsSpoiled.append (spoiled : IsSpoiled rest) (covered : List Char)
    (closes : closesAt? (covered ++ rest) = (closesAt? rest).map (· + covered.length)) :
    IsSpoiled (covered ++ rest) := by
  intro _ found
  rw [closes] at found
  obtain ⟨size, found', rfl⟩ := Option.map_eq_some_iff.mp found
  obtain ⟨char, member, forbidden⟩ := spoiled size found'
  refine ⟨char, ?_, forbidden⟩
  rw [Nat.add_comm, List.take_length_add_append]
  exact List.mem_append_right _ member

theorem isSpoiled_of_readBlock {misread : Misread}
    (outcome : readBlock text = .error misread) : IsSpoiled text := by
  fun_induction readBlock text generalizing misread with
  | case1 =>
      intro size closes
      cases closes
  | case2 => cases outcome
  | case3 rest induction =>
      obtain ⟨inner, outcome', _⟩ := precede_eq_error.mp outcome
      have closes :
          closesAt? ('\\' :: tripleQuote ++ rest) = (closesAt? rest).map (· + 4) := rfl
      exact (induction outcome').append ('\\' :: tripleQuote) closes
  | case4 char rest notQuotes notEscape forbidden =>
      intro size closes
      rw [closesAt?_cons notQuotes notEscape] at closes
      obtain ⟨size, _, rfl⟩ := Option.map_eq_some_iff.mp closes
      exact ⟨char, List.mem_cons_self .., forbidden⟩
  | case5 char rest notQuotes notEscape allowed induction =>
      obtain ⟨inner, outcome', _⟩ := precede_eq_error.mp outcome
      exact (induction outcome').append [char] (closesAt?_cons notQuotes notEscape)

theorem readBlock_eq_error_iff :
    (∃ misread, readBlock text = .error misread) ↔ IsSpoiled text := by
  refine ⟨fun ⟨_, outcome⟩ => isSpoiled_of_readBlock outcome, fun spoiled => ?_⟩
  cases outcome : readBlock text with
  | error misread => exact ⟨misread, rfl⟩
  | ok read =>
      obtain ⟨inner, written, _, closes, allowed⟩ := closesAt?_of_readBlock outcome
      obtain ⟨char, member, forbidden⟩ := spoiled _ closes
      rw [(readBlock_covers outcome).2.whole, written, List.append_assoc, List.take_left]
        at member
      rw [allowed char member] at forbidden
      cases forbidden

/-! ## Contents -/

/-- What may stand between triple quotes: no control characters but tabs and line ends,
and nothing that closes the string before the quotes behind it do. -/
structure IsBlockContent (content : List Char) : Prop where
  allowed : ∀ char ∈ content, 0x20 ≤ char.toNat ∨ char ∈ ['\t', '\n', '\r']
  closes : closesAt? (content ++ tripleQuote) = some content.length

theorem isForbiddenControl_eq_false :
    isForbiddenControl char = false ↔ 0x20 ≤ char.toNat ∨ char ∈ ['\t', '\n', '\r'] := by
  simp only [isForbiddenControl, Bool.and_eq_false_iff, decide_eq_false_iff_not,
    Nat.not_lt, bne_eq_false_iff_eq, or_assoc, List.mem_cons, List.not_mem_nil, or_false]

theorem IsBlockContent.readBlock_eq (isContent : IsBlockContent content) :
    readBlock (content ++ tripleQuote) =
      .ok ⟨unescape content, content ++ tripleQuote, []⟩ := by
  cases outcome : readBlock (content ++ tripleQuote) with
  | error misread =>
      obtain ⟨char, member, forbidden⟩ :=
        isSpoiled_of_readBlock outcome _ isContent.closes
      rw [List.take_left] at member
      rw [isForbiddenControl_eq_false.mpr (isContent.allowed char member)] at forbidden
      cases forbidden
  | ok read =>
      obtain ⟨inner, written, value, closes, _⟩ := closesAt?_of_readBlock outcome
      have whole := (readBlock_covers outcome).2.whole
      rw [written, List.append_assoc] at whole
      obtain ⟨rfl, rest⟩ :=
        List.append_inj whole (Option.some.inj (isContent.closes.symm.trans closes))
      have nothing : read.rest = [] :=
        List.append_cancel_left (rest.symm.trans (List.append_nil _).symm)
      obtain ⟨_, _, _⟩ := read
      simp only at written value nothing
      rw [written, value, nothing]

theorem exists_isBlockContent {read : StringContent} (outcome : readBlock text = .ok read)
    (all : read.rest = []) :
    ∃ content, text = content ++ tripleQuote ∧ IsBlockContent content ∧
      read.value = unescape content := by
  obtain ⟨inner, written, value, closes, allowed⟩ := closesAt?_of_readBlock outcome
  have whole : text = inner ++ tripleQuote := by
    rw [(readBlock_covers outcome).2.whole, all, List.append_nil, written]
  exact ⟨inner, whole, ⟨fun char member =>
    isForbiddenControl_eq_false.mp (allowed char member), whole ▸ closes⟩, value⟩

/-! ## Tokens -/

def blockQuote (content : List Char) : List Char := tripleQuote ++ content ++ tripleQuote

theorem IsBlockContent.readToken_blockQuote (isContent : IsBlockContent content) :
    readToken (blockQuote content) =
      .ok ⟨.blockString (dedentString (String.ofList (unescape content))),
        blockQuote content, []⟩ := by
  rw [blockQuote, List.append_assoc]
  change readBlockString (content ++ tripleQuote) = _
  rw [readBlockString, isContent.readBlock_eq, dedentString, String.toList_ofList]

theorem exists_blockQuote_eq {value : String}
    (read : readToken text = .ok ⟨.blockString value, text, []⟩) :
    ∃ content, text = blockQuote content ∧ IsBlockContent content ∧
      value = dedentString (String.ofList (unescape content)) := by
  obtain ⟨inner, rfl⟩ : ∃ inner, text = tripleQuote ++ inner ++ tripleQuote :=
    (readToken_spelled read).isWritten
  rw [List.append_assoc] at read
  change readBlockString (inner ++ tripleQuote) = _ at read
  unfold readBlockString at read
  split at read
  next block outcome =>
    simp only [Except.ok.injEq, Reading.mk.injEq, Lexeme.blockString.injEq] at read
    obtain ⟨rfl, _, nothing⟩ := read
    obtain ⟨content, whole, isContent, value⟩ := exists_isBlockContent outcome nothing
    obtain rfl := List.append_cancel_right whole
    exact ⟨inner, rfl, isContent, by rw [value, dedentString, String.toList_ofList]⟩
  next => cases read

/-- Where a block string cannot be read, nor can the source. -/
theorem exists_tokenize_eq_error {source : Source} {tokens : List Token} {cursor : Cursor}
    (takes : (Cursor.start source).Takes tokens cursor)
    (begins : cursor.rest.dropWhile isIgnored = tripleQuote ++ text)
    (spoiled : IsSpoiled text) : ∃ error, tokenize source = .error error := by
  obtain ⟨misread, outcome⟩ := readBlock_eq_error_iff.mpr spoiled
  have read : readToken (cursor.rest.dropWhile isIgnored) =
      .error (misread.after tripleQuote) := by
    rw [begins]
    change readBlockString text = _
    rw [readBlockString, outcome]
  have fault := Cursor.next_eq_error.mpr ⟨_, read, rfl⟩
  have yields : source.Yields (.startOfFile :: (tokens ++ [])) _ :=
    ⟨_, rfl, takes.yields (.fault fault)⟩
  exact ⟨_, yields.tokenize_eq⟩

/-- A block string is closed by the first three quotes that are not escaped, and says what
is in front of them. If there are none, or a control character is in front of them, the
source cannot be read. -/
theorem blockStrings_closed :
    (∀ (content : List Char) (name : String) (offset : Location), IsBlockContent content →
      Source.IsToken ⟨String.ofList (blockQuote content), name, offset⟩
        (.blockString (dedentString (String.ofList (unescape content))))) ∧
    (∀ (source : Source) (tokens : List Token), tokenize source = .ok tokens →
      ∀ token ∈ tokens, ∀ value, token.lexeme = .blockString value →
        ∃ content, source.textOf token.span = String.ofList (blockQuote content) ∧
        IsBlockContent content ∧
          value = dedentString (String.ofList (unescape content))) ∧
    ∀ (source : Source) (tokens : List Token) (cursor : Cursor) (text : List Char),
      (Cursor.start source).Takes tokens cursor →
        cursor.rest.dropWhile isIgnored = tripleQuote ++ text →
        (closesAt? text = none ∨ ∃ size, closesAt? text = some size ∧
          ∃ char ∈ text.take size, char.toNat < 0x20 ∧ char ∉ ['\t', '\n', '\r']) →
          ∃ error, tokenize source = .error error := by
  refine ⟨fun content name offset isContent => ?_,
    fun source tokens tokenized token member value isString => ?_,
    fun source tokens cursor text takes begins unclosed =>
      exists_tokenize_eq_error takes begins fun size closes => ?_⟩
  · refine Source.isToken_of_readToken isContent.readToken_blockQuote rfl ?_ name offset
    rintro _ ⟨⟩
    rfl
  · have read :=
      ((tiles_of_tokenize tokenized).tile token member).read (by rw [isString]; rfl)
    rw [isString] at read
    obtain ⟨content, written, isContent, decoded⟩ := exists_blockQuote_eq read
    exact ⟨content, by rw [← written, String.ofList_toList], isContent, decoded⟩
  · rcases unclosed with missing | ⟨size', closes', char, member, isControl, other⟩
    · rw [missing] at closes
      cases closes
    · obtain rfl := Option.some.inj (closes.symm.trans closes')
      refine ⟨char, member, Bool.of_not_eq_false fun allowed => ?_⟩
      rcases isForbiddenControl_eq_false.mp allowed with visible | isLayout
      · exact absurd isControl (Nat.not_lt.mpr visible)
      · exact other isLayout

theorem escape_closed :
    (IsBlockContent ['\\', '"', '"', '"', '"', '\n', ' ', 'y'] ∧
      Source.IsToken { body := "\"\"\"\\\"\"\"\"\n y\"\"\"" }
        (.blockString "\"\"\"\"\ny")) ∧
    (∃ tokens token, tokenize { body := "a\"\"\"b\"\"\"" } = .ok tokens ∧ token ∈ tokens ∧
      token.lexeme = .blockString "b" ∧
        ∃ content, Source.textOf { body := "a\"\"\"b\"\"\"" } token.span =
          String.ofList (blockQuote content) ∧
          IsBlockContent content ∧ "b" =
            dedentString (String.ofList (unescape content))) ∧
    closesAt? ['b', '\\', '"', '"', '"'] = none ∧
    ∃ error, tokenize { body := "a\"\"\"b\\\"\"\"" } = .error error := by
  have isContent : IsBlockContent ['\\', '"', '"', '"', '"', '\n', ' ', 'y'] :=
    ⟨by simp, by decide⟩
  have body : String.ofList (blockQuote ['\\', '"', '"', '"', '"', '\n', ' ', 'y']) =
      "\"\"\"\\\"\"\"\"\n y\"\"\"" := by rfl
  have value :
      dedentString (String.ofList (unescape ['\\', '"', '"', '"', '"', '\n', ' ', 'y'])) =
      "\"\"\"\"\ny" := by rfl
  let token : Token := ⟨.blockString "b", ⟨1, ⟨1, 2⟩⟩, 8, 2, 2⟩
  have tokenized : tokenize { body := "a\"\"\"b\"\"\"" } =
      .ok [.startOfFile, ⟨.name "a", .origin, 1, 1, 1⟩, token,
        ⟨.endOfFile, ⟨8, ⟨1, 9⟩⟩, 8, 3, 3⟩] := by rfl
  have member :
      token ∈ [.startOfFile, ⟨.name "a", .origin, 1, 1, 1⟩, token,
        ⟨.endOfFile, ⟨8, ⟨1, 9⟩⟩, 8, 3, 3⟩] := by
    simp
  have next : (Cursor.start { body := "a\"\"\"b\\\"\"\"" }).next = .ok (_, _) := rfl
  refine ⟨⟨isContent, ?_⟩, ?_, by decide, ?_⟩
  · rw [← body, ← value]
    exact blockStrings_closed.1 _ _ _ isContent
  · exact ⟨_, token, tokenized, member, rfl,
      blockStrings_closed.2.1 _ _ tokenized token member _ rfl⟩
  · exact blockStrings_closed.2.2 _ _ _ _ (.cons next rfl .nil) rfl (.inl rfl)

end GraphQL
