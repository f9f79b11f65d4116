import GraphQL.Proofs.Numbers.Recognition

/-! Texts laid out as tokens.

A text that is a token by itself is read as that token wherever nothing follows that the
token would run on into. So tokens are read again when they are laid out with anything
ignored in between. -/

namespace GraphQL

open Number Text

variable {char : Char} {text rest : List Char} {lexeme : Lexeme}

theorem eq_of_isIgnored (ignored : isIgnored char = true) :
    char = '\ufeff' ∨ char = '\t' ∨ char = ' ' ∨ char = ',' ∨ char = '\n' ∨
      char = '\r' := by
  simpa using isIgnored_iff.mp ignored

/-- Whether a token would go on with the character, if that stood behind it -/
def Lexeme.runsOn : Lexeme → Char → Bool
  | name _, char => isNameContinue char
  | integer _, char | float _, char => Number.runsOn char
  | string _, char => char == '"'
  | comment _, char => !isLineEnd char
  | startOfFile, _ | endOfFile, _ | punctuator _, _ | blockString _, _ => false

theorem Lexeme.runsOn_of_isLineEnd (isEnd : isLineEnd char = true) :
    lexeme.runsOn char = false := by
  cases lexeme with
  | comment => simp [Lexeme.runsOn, isEnd]
  | _ => rcases eq_of_isLineEnd isEnd with rfl | rfl <;> rfl

/-- The text is one token, from its beginning to its end. -/
structure Lexeme.IsReadFrom (lexeme : Lexeme) (text : List Char) : Prop where
  nonempty : text ≠ []
  read : readToken text = .ok ⟨lexeme, text, []⟩

/-! ## One token -/

theorem readNumber_append (read : readNumber text = .ok ⟨lexeme, text, []⟩)
    (ends : Unless lexeme.runsOn rest) :
    readNumber (text ++ rest) = .ok ⟨lexeme, text, rest⟩ := by
  have heads := heads_of_readNumber read
  obtain ⟨_, _, again⟩ := heads.readNumber_eq
  obtain rfl : lexeme = lexemeOf text :=
    (Reading.mk.inj (Except.ok.inj (read.symm.trans again))).1
  have ends' : Unless Number.runsOn rest := by
    intro char first
    have stops := ends char first
    unfold lexemeOf at stops
    split at stops <;> exact stops
  have heads' : Heads text (text ++ rest) :=
    ⟨heads.nonempty, heads.isNumber, rest, rfl, fun char first =>
      runsOn_eq_false.mp (ends' char first)⟩
  obtain ⟨behind, whole, again⟩ := heads'.readNumber_eq
  rw [again, List.append_cancel_left whole]

theorem append_of_other (other : char ∉ ['.', '"', '#'])
    (read : readToken (char :: text) = .ok ⟨lexeme, char :: text, []⟩)
    (ends : Unless lexeme.runsOn rest) :
    readToken (char :: text ++ rest) = .ok ⟨lexeme, char :: text, rest⟩ := by
  have unfolded := readToken_of_other other
  rw [unfolded] at read
  rw [List.cons_append, unfolded]
  split at read
  next mark isMark =>
    cases read
    rfl
  next =>
  split at read
  next isNumber =>
    rw [if_pos isNumber]
    exact readNumber_append read ends
  next notNumber =>
  split at read
  next starts =>
    obtain ⟨rfl, taken, _⟩ := Reading.mk.inj (Except.ok.inj read)
    have run := takeWhile_again isNameContinue (char :: text) ends
    rw [taken, List.cons_append] at run
    rw [if_neg notNumber, if_pos starts, readName, run.1, run.2, taken]
  next => cases read

theorem append_of_quote (read : readToken ('"' :: text) = .ok ⟨lexeme, '"' :: text, []⟩)
    (ends : Unless lexeme.runsOn rest) :
    readToken ('"' :: text ++ rest) = .ok ⟨lexeme, '"' :: text, rest⟩ := by
  by_cases isBlock : ∃ more, text = '"' :: '"' :: more
  · obtain ⟨text, rfl⟩ := isBlock
    change readBlockString text = _ at read
    change readBlockString (text ++ rest) = _
    unfold readBlockString at read ⊢
    split at read
    next content block =>
      obtain ⟨rfl, covered, _⟩ := Reading.mk.inj (Except.ok.inj read)
      have covered : tripleQuote ++ content.text = tripleQuote ++ text := covered
      obtain rfl := List.append_cancel_left covered
      obtain ⟨_, _, again⟩ := readBlock_covers block
      rw [again]
      rfl
    next => cases read
  · have single : ∀ more, text ≠ '"' :: '"' :: more :=
      fun more equal => isBlock ⟨more, equal⟩
    rw [readToken_string single] at read
    obtain ⟨inner, value, text', rfl, nonempty, _, again⟩ := readString_covers read
    obtain rfl : text = inner := List.tail_eq_of_cons_eq text'
    rw [List.cons_append, readToken_string, again]
    -- Behind two quotes a third would open a block string.
    intro more equal
    match text, nonempty with
    | ['"'], _ =>
        obtain rfl : rest = '"' :: more := List.tail_eq_of_cons_eq equal
        exact absurd (ends '"' rfl) (by simp [Lexeme.runsOn])
    | first :: second :: text, _ =>
        cases equal
        exact single _ rfl

theorem append_of_dot (read : readToken ('.' :: text) = .ok ⟨lexeme, '.' :: text, []⟩) :
    readToken ('.' :: text ++ rest) = .ok ⟨lexeme, '.' :: text, rest⟩ := by
  rw [readToken.eq_def] at read
  split at read
  next equal => cases equal
  next equal =>
    cases equal
    cases read
    rfl
  next equal => cases equal
  next equal => cases equal
  next equal => cases equal
  next equal =>
    cases equal
    cases read

theorem append_of_sign (read : readToken ('#' :: text) = .ok ⟨lexeme, '#' :: text, []⟩)
    (ends : Unless lexeme.runsOn rest) :
    readToken ('#' :: text ++ rest) = .ok ⟨lexeme, '#' :: text, rest⟩ := by
  obtain ⟨rfl, covered, _⟩ := Reading.mk.inj (Except.ok.inj read)
  have taken := (List.cons.inj covered).2
  have stops : ∀ char ∈ rest.head?, (!isLineEnd char) = false := ends
  have run := takeWhile_again (!isLineEnd ·) text stops
  rw [taken] at run
  change Except.ok (readComment (text ++ rest)) = _
  rw [readComment, run.1, run.2, taken]

namespace Lexeme.IsReadFrom

theorem append (isRead : lexeme.IsReadFrom text)
    (ends : ∀ char ∈ rest.head?, lexeme.runsOn char = false) :
    readToken (text ++ rest) = .ok ⟨lexeme, text, rest⟩ := by
  obtain ⟨nonempty, read⟩ := isRead
  obtain ⟨char, text, rfl⟩ := List.exists_cons_of_ne_nil nonempty
  by_cases other : char ∉ ['.', '"', '#']
  · exact append_of_other other read ends
  · simp only [List.mem_cons, List.not_mem_nil, or_false, Decidable.not_not] at other
    rcases other with rfl | rfl | rfl
    · exact append_of_dot read
    · exact append_of_quote read ends
    · exact append_of_sign read ends

theorem notEnd (isRead : lexeme.IsReadFrom text) : lexeme.isEndOfFile = false := by
  have other := (readToken_stands isRead.nonempty isRead.read).notEnd
  cases lexeme <;> first | rfl | exact absurd rfl other

theorem clear (isRead : lexeme.IsReadFrom text) (rest : List Char) :
    ∀ char ∈ (text ++ rest).head?, isIgnored char = false := by
  obtain ⟨nonempty, read⟩ := isRead
  obtain ⟨first, text, rfl⟩ := List.exists_cons_of_ne_nil nonempty
  rintro _ ⟨⟩
  rw [Bool.eq_false_iff]
  intro ignored
  rcases eq_of_isIgnored ignored with rfl | rfl | rfl | rfl | rfl | rfl <;> cases read

end Lexeme.IsReadFrom

/-! ## Tokens in a row -/

/-- The text is laid out as tokens that say these, each in front of what it
does not run on into. -/
inductive LaidOut : List Lexeme → List Char → Prop
  | nothing {gap} : gap.all isIgnored = true → LaidOut [] gap
  | token {gap lexeme text said rest} :
      gap.all isIgnored = true → lexeme.IsReadFrom text →
      (∀ char ∈ rest.head?, lexeme.runsOn char = false) →
      LaidOut said rest → LaidOut (lexeme :: said) (gap ++ (text ++ rest))

theorem LaidOut.cons {said : List Lexeme} (isRead : lexeme.IsReadFrom text)
    (ends : ∀ char ∈ rest.head?, lexeme.runsOn char = false) (laid : LaidOut said rest) :
    LaidOut (lexeme :: said) (text ++ rest) := by
  change LaidOut (lexeme :: said) ([] ++ (text ++ rest))
  exact .token rfl isRead ends laid

theorem LaidOut.takes {said : List Lexeme} (laid : LaidOut said text) {cursor : Cursor}
    (ahead : cursor.rest = text) :
    ∃ tokens after, cursor.Takes tokens after ∧ after.rest.dropWhile isIgnored = [] ∧
      tokens.map Token.lexeme = said := by
  induction laid generalizing cursor with
  | nothing ignored =>
      refine ⟨[], cursor, .nil, ?_, rfl⟩
      rw [ahead, List.dropWhile_eq_nil_iff]
      exact List.all_eq_true.mp ignored
  | @token gap lexeme text said rest ignored isRead ends _ induction =>
      let reading : Reading := ⟨lexeme, text, rest⟩
      have text' : cursor.rest.dropWhile isIgnored = text ++ rest := by
        have taken : gap.takeWhile isIgnored = gap :=
          List.takeWhile_eq_self_iff.mpr (List.all_eq_true.mp ignored)
        have further := (takeWhile_again isIgnored gap (isRead.clear rest)).2
        rwa [taken, ← ahead] at further
      have read : readToken (cursor.rest.dropWhile isIgnored) = .ok reading :=
        text' ▸ isRead.append ends
      obtain ⟨tokens, after, takes, nothing, same⟩ :=
        induction (show (cursor.behind reading).rest = rest from rfl)
      exact ⟨cursor.tokenOf reading :: tokens, after,
        .cons (Cursor.next_eq_ok.mpr ⟨reading, read, rfl, rfl⟩) isRead.notEnd takes,
          nothing,
        congrArg (lexeme :: ·) same⟩

theorem Source.exists_yields_of_laidOut (source : Source) {said : List Lexeme}
    (laid : LaidOut said source.chars) :
    ∃ tokens, source.Yields tokens none ∧
      tokens.map Token.lexeme = .startOfFile :: (said ++ [.endOfFile]) := by
  obtain ⟨inside, cursor, takes, nothing, rfl⟩ :=
    laid.takes (show (Cursor.start source).rest = _ from rfl)
  obtain ⟨last, yields, atEnd⟩ := Cursor.yields_nil nothing
  refine ⟨_, ⟨_, rfl, takes.yields yields⟩, ?_⟩
  rw [List.map_cons, List.map_append, List.map_singleton, atEnd]
  rfl

/-! ## Other separators -/

/-- Separators for the tokens of a source, one in front of all and one behind each token
that is not an end of the source. Only the last may be empty. Behind a comment, one that
is not begins with a line end. -/
structure Separates (tokens : List Token) (front : String)
    (row : List (Token × String)) : Prop where
  tokens_eq : row.map Prod.fst = tokens.filter (!·.lexeme.isSentinel)
  ignored : ∀ gap ∈ front :: row.map Prod.snd,
    ∀ char ∈ gap.toList, char ∈ ['\ufeff', '\t', ' ', ',', '\n', '\r']
  apart : ∀ gap ∈ (row.map Prod.snd).dropLast, gap ≠ ""
  broken : ∀ part ∈ row, part.1.kind = .comment →
    ∀ char ∈ part.2.toList.head?, char ∈ ['\n', '\r']

theorem Lexeme.runsOn_eq_false (ignored : isIgnored char = true)
    (broken : lexeme.kind = .comment → isLineEnd char = true) :
    lexeme.runsOn char = false := by
  cases lexeme with
  | comment => exact runsOn_of_isLineEnd (broken rfl)
  | _ => rcases eq_of_isIgnored ignored with rfl | rfl | rfl | rfl | rfl | rfl <;> rfl

theorem laidOut_row (textOf : Token → String) {row : List (Token × String)}
    (isRead : ∀ part ∈ row, part.1.lexeme.IsReadFrom (textOf part.1).toList)
    (ignored : ∀ part ∈ row, part.2.toList.all isIgnored = true)
    (apart : ∀ gap ∈ (row.map Prod.snd).dropLast, gap ≠ "")
    (broken : ∀ part ∈ row, part.1.kind = .comment →
      ∀ char ∈ part.2.toList.head?, isLineEnd char = true)
    {front : List Char} (clear : front.all isIgnored = true) :
    LaidOut (row.map (·.1.lexeme))
      (front ++ row.flatMap fun part => (textOf part.1).toList ++ part.2.toList) := by
  induction row generalizing front with
  | nil => exact .nothing (by simpa using clear)
  | cons part row induction =>
      obtain ⟨isRead, isRead'⟩ := List.forall_mem_cons.mp isRead
      obtain ⟨ignored, ignored'⟩ := List.forall_mem_cons.mp ignored
      obtain ⟨broken, broken'⟩ := List.forall_mem_cons.mp broken
      have apart' : ∀ gap ∈ (row.map Prod.snd).dropLast, gap ≠ "" := by
        intro gap member
        cases row with
        | nil => cases member
        | cons => exact apart gap (List.mem_cons_of_mem _ member)
      have laid := induction isRead' ignored' apart' broken' ignored
      rw [List.flatMap_cons, List.append_assoc]
      refine .token clear isRead (fun char first => ?_) laid
      cases gap : part.2.toList with
      | nil =>
          -- The separator is the last one, so nothing is left.
          cases row with
          | nil => simp [gap] at first
          | cons =>
              have empty : part.2 = "" := String.toList_eq_nil_iff.mp gap
              exact absurd empty (apart _ List.mem_cons_self)
      | cons other gap' =>
          rw [gap] at first
          obtain rfl : other = char := Option.some.inj first
          rw [gap] at ignored broken
          exact Lexeme.runsOn_eq_false (List.all_eq_true.mp ignored _ List.mem_cons_self)
            fun isComment => broken isComment other rfl

section

variable {source : Source} {tokens : List Token}

/-- What a token covers of its source is that token by itself. -/
theorem isReadFrom_of_tokenize (tokenized : tokenize source = .ok tokens) {token : Token}
    (member : token ∈ tokens) (other : token.lexeme.isSentinel = false) :
    token.lexeme.IsReadFrom (source.textOf token.span).toList := by
  have read := ((tiles_of_tokenize tokenized).tile token member).read other
  refine ⟨fun empty => ?_, read⟩
  rw [empty] at read
  obtain isEnd : Lexeme.endOfFile = token.lexeme :=
    (Reading.mk.inj (Except.ok.inj read)).1
  rw [← isEnd] at other
  cases other

theorem lexemes_of_tokenize (tokenized : tokenize source = .ok tokens) :
    tokens.map Token.lexeme =
      .startOfFile :: ((tokens.filter (!·.lexeme.isSentinel)).map Token.lexeme ++
        [.endOfFile]) := by
  obtain ⟨rest, rfl, yields⟩ := tokenize_eq_ok.mp tokenized
  obtain ⟨inside, last, rfl, atEnd, notEnd⟩ := yields.ends
  have kept : inside.filter (!·.lexeme.isSentinel) = inside := by
    refine List.filter_eq_self.mpr fun token member => ?_
    have notStart := yields.notStart token (List.mem_append_left _ member)
    have notEnd := notEnd token member
    rw [Token.isEndOfFile] at notEnd
    cases lexeme : token.lexeme <;> simp_all [Lexeme.isSentinel, Lexeme.isEndOfFile]
  have ends : [last].filter (!·.lexeme.isSentinel) = [] := by
    simp [atEnd, Lexeme.isSentinel]
  have begins : (!Token.startOfFile.lexeme.isSentinel) = false := rfl
  rw [List.filter_cons_of_neg (by simp [begins]), List.filter_append, kept, ends,
    List.append_nil, List.map_cons, List.map_append, List.map_singleton, atEnd]
  rfl

/-- Whatever separates its tokens, a source is read as the same tokens. -/
theorem tokenize_relaid {relaid : Source} {front : String} {row : List (Token × String)}
    (tokenized : tokenize source = .ok tokens) (separates : Separates tokens front row)
    (body : relaid.body = front ++
      String.join (row.map fun part => source.textOf part.1.span ++ part.2)) :
    ∃ tokens', tokenize relaid = .ok tokens' ∧
      tokens'.map Token.kind = tokens.map Token.kind ∧
      tokens'.map Token.value = tokens.map Token.value := by
  obtain ⟨tokens_eq, ignored, apart, broken⟩ := separates
  have isIgnored_of :
      ∀ gap ∈ front :: row.map Prod.snd, gap.toList.all isIgnored = true :=
    fun gap member => List.all_eq_true.mpr fun char inside =>
      isIgnored_iff.mpr (ignored gap member char inside)
  have isRead :
      ∀ part ∈ row, part.1.lexeme.IsReadFrom (source.textOf part.1.span).toList := by
    intro part member
    have kept : part.1 ∈ tokens.filter (!·.lexeme.isSentinel) :=
      tokens_eq ▸ List.mem_map_of_mem member
    obtain ⟨member, other⟩ := List.mem_filter.mp kept
    exact isReadFrom_of_tokenize tokenized member (by simpa using other)
  have laid := laidOut_row (fun token => source.textOf token.span) isRead
    (fun part member =>
      isIgnored_of _ (List.mem_cons_of_mem _ (List.mem_map_of_mem member))) apart
    (fun part member isComment char first => by
      simpa [isLineEnd] using broken part member isComment char first)
    (isIgnored_of front List.mem_cons_self)
  have chars : relaid.chars = front.toList ++
      row.flatMap fun part => (source.textOf part.1.span).toList ++ part.2.toList := by
    rw [Source.chars, body, String.toList_append, String.toList_join, List.flatMap_map]
    simp only [String.toList_append]
  obtain ⟨tokens', yields, said⟩ := relaid.exists_yields_of_laidOut (chars ▸ laid)
  have same : tokens'.map Token.lexeme = tokens.map Token.lexeme := by
    rw [said, lexemes_of_tokenize tokenized, ← tokens_eq, List.map_map]
    rfl
  refine ⟨tokens', tokenize_eq_ok.mpr yields, ?_, ?_⟩
  · have kinds := congrArg (List.map Lexeme.kind) same
    rwa [List.map_map, List.map_map] at kinds
  · have values := congrArg (List.map Lexeme.value) same
    rwa [List.map_map, List.map_map] at values

theorem comment_relaid :
    ∃ tokens tokens', tokenize { body := "a 1#b" } = .ok tokens ∧
      Separates tokens "\ufeff" ((tokens.filter (!·.lexeme.isSentinel)).zip [",",
        "\t", "\r"]) ∧
      tokenize { body := "\ufeffa,1\t#b\r" } = .ok tokens' ∧
      tokens'.map Token.kind = tokens.map Token.kind ∧
        tokens'.map Token.value = tokens.map Token.value := by
  cases tokenized : tokenize { body := "a 1#b" } with
  | error error => cases tokenized
  | ok tokens =>
      have separates : Separates tokens "\ufeff"
          ((tokens.filter (!·.lexeme.isSentinel)).zip [",", "\t", "\r"]) := by
        cases tokenized
        refine ⟨rfl, ?ignored, by decide, ?broken⟩
        case ignored =>
          change ∀ gap ∈ ["\ufeff", ",", "\t", "\r"], _
          simp
        case broken =>
          -- The last of the tokens is the only comment.
          refine List.forall_mem_cons.mpr ⟨nofun, List.forall_mem_cons.mpr ⟨nofun, ?_⟩⟩
          exact List.forall_mem_singleton.mpr fun _ => by simp
      obtain ⟨tokens', again, kinds, values⟩ :=
        @tokenize_relaid _ _ { body := "\ufeffa,1\t#b\r" } _ _
          tokenized separates (by cases tokenized; rfl)
      exact ⟨tokens, tokens', rfl, separates, again, kinds, values⟩

end

end GraphQL
