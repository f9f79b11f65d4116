import GraphQL.Proofs.Lexing.Source
import GraphQL.Proofs.Lexing.Spelling

/-! The tokens of a source tile its text.

Every character of a source belongs to one token, or is ignored in front of one. -/

namespace GraphQL

open Text

/-! ## Spans of text -/

theorem Text.dropBytes_byteSize_append (covered rest : List Char) :
    dropBytes (byteSize covered) (covered ++ rest) = rest := by
  induction covered with
  | nil => cases rest <;> simp [dropBytes]
  | cons char covered induction =>
      have nonzero : char.utf8Size ≠ 0 := Nat.ne_of_gt char.utf8Size_pos
      simp [dropBytes, nonzero, induction]

/-- The span is that of a part of the source, between others. -/
structure Source.Holds (source : Source) (before covered after : List Char)
    (span : Span) : Prop where
  whole : source.chars = before ++ (covered ++ after)
  start : span.start = byteSize before
  stop : span.stop = byteSize (before ++ covered)

namespace Source.Holds

variable {source : Source} {before covered after : List Char} {span : Span}

theorem textOf_eq (holds : source.Holds before covered after span) :
    source.textOf span = String.ofList covered := by
  have length : span.length = byteSize covered := by
    rw [Span.length, holds.start, holds.stop, byteSize_append, Nat.add_sub_cancel_left]
  rw [Source.textOf, holds.whole, holds.start, length, dropBytes_byteSize_append,
    takeBytes_byteSize_append]

theorem stop_le (holds : source.Holds before covered after span) :
    span.stop ≤ source.size := by
  rw [source.size_eq, holds.whole, holds.stop, ← List.append_assoc,
    byteSize_append _ after]
  exact Nat.le_add_right ..

theorem front {gap : List Char}
    (holds : source.Holds (before ++ gap) covered after span) :
    source.Holds before gap (covered ++ after) ⟨byteSize before, span.start⟩ where
  whole := by rw [holds.whole, List.append_assoc]
  start := rfl
  stop := holds.start

theorem behind (holds : source.Holds before covered after span) :
    source.Holds (before ++ covered) after [] ⟨span.stop, source.size⟩ where
  whole := by rw [holds.whole, List.append_nil, List.append_assoc]
  start := holds.stop
  stop := by simp [source.size_eq, holds.whole]

end Source.Holds

/-- The offset is that of a character, or of the end. -/
def Source.IsBoundary (source : Source) (offset : Nat) : Prop :=
  ∃ passed rest, source.chars = passed ++ rest ∧ offset = byteSize passed

theorem Source.Holds.isBoundary {source : Source}
    {before covered after : List Char} {span : Span}
    (holds : source.Holds before covered after span) :
    source.IsBoundary span.start ∧ source.IsBoundary span.stop :=
  ⟨⟨before, covered ++ after, holds.whole, holds.start⟩,
    ⟨before ++ covered, after, by rw [holds.whole, List.append_assoc], holds.stop⟩⟩

theorem Source.textOf_end (source : Source) :
    source.textOf ⟨byteSize source.chars, source.size⟩ = "" := by
  have holds : source.Holds source.chars [] [] ⟨byteSize source.chars, source.size⟩ :=
    ⟨by simp, rfl, by simp [source.size_eq]⟩
  exact holds.textOf_eq

theorem Cursor.holds_tokenOf {source : Source} {cursor : Cursor} {reading : Reading}
    {before : List Char}
    (chars : source.chars = before ++ cursor.rest)
    (offset : cursor.position.offset = byteSize before)
    (whole : cursor.rest.dropWhile isIgnored = reading.text ++ reading.rest) :
    source.Holds (before ++ cursor.rest.takeWhile isIgnored) reading.text reading.rest
      (cursor.tokenOf reading).span where
  whole := by rw [List.append_assoc, ← whole, List.takeWhile_append_dropWhile, chars]
  start := by simp [Token.span, tokenOf, tokenStart, Position.after, offset]
  stop := by simp [Token.span, tokenOf, tokenStart, Position.after, offset, Nat.add_assoc]

/-! ## Tiles -/

/-- Tokens that stand for an end of the source, and cover nothing of it -/
def Lexeme.isSentinel : Lexeme → Bool
  | startOfFile | endOfFile => true
  | _ => false

/-- The tokens, and ignored characters in front of them, cover what follows `before`. -/
inductive Source.Tiles (source : Source) : (before : List Char) → List Token → Prop
  | nothing {before} : before = source.chars → Tiles source before []
  | token {before gap token tokens} {reading : Reading} :
      gap.all isIgnored = true → reading.Spelled →
      (reading.lexeme.isSentinel = false →
        reading.Stands (reading.text ++ reading.rest)) →
      token.lexeme = reading.lexeme →
      source.Holds (before ++ gap) reading.text reading.rest token.span →
      Tiles source (before ++ gap ++ reading.text) tokens →
      Tiles source before (token :: tokens)

variable {source : Source} {tokens : List Token}

theorem Source.Tiles.sentinel {before gap after : List Char} {token : Token}
    (ignored : gap.all isIgnored = true) (isSentinel : token.lexeme.isSentinel = true)
    (holds : source.Holds (before ++ gap) [] after token.span)
    (tiles : source.Tiles (before ++ gap) tokens) :
    source.Tiles before (token :: tokens) := by
  let reading : Reading := ⟨token.lexeme, [], after⟩
  have spelled : reading.Spelled := by
    cases lexeme : token.lexeme <;> simp_all [Lexeme.isSentinel, reading] <;>
      exact .of_isWritten rfl rfl
  refine .token ignored spelled (fun other => ?_) rfl holds (by
    simpa [reading] using tiles)
  rw [isSentinel] at other
  cases other

theorem Cursor.Yields.tiles {cursor : Cursor} {ending : Option LexicalError}
    {before : List Char} (yields : cursor.Yields tokens ending) (unended : ending = none)
    (chars : source.chars = before ++ cursor.rest)
    (offset : cursor.position.offset = byteSize before) :
    source.Tiles before tokens := by
  have ignored : ∀ text : List Char, (text.takeWhile isIgnored).all isIgnored = true :=
    fun _ => List.all_takeWhile
  induction yields generalizing before with
  | fault => cases unended
  | @last cursor token after next atEnd =>
      have nothing := rest_of_isEndOfFile next atEnd
      obtain ⟨reading, read, rfl, rfl⟩ := next_eq_ok.mp next
      rw [nothing] at read
      cases read
      let reading : Reading := ⟨.endOfFile, [], []⟩
      have empty : cursor.rest.dropWhile isIgnored = reading.text ++ reading.rest :=
        nothing
      have holds := holds_tokenOf chars offset empty
      have whole : source.chars = before ++ cursor.rest.takeWhile isIgnored := by
        simpa [reading] using holds.whole
      exact .sentinel (ignored _) rfl holds (.nothing whole.symm)
  | @more cursor token after tokens ending next notEnd _ induction =>
      obtain ⟨reading, stands, rfl, rfl⟩ := stands_of_next next notEnd
      have holds := holds_tokenOf chars offset stands.whole
      have read : readToken (cursor.rest.dropWhile isIgnored) = .ok reading :=
        stands.whole ▸ stands.again (.inl rfl)
      refine .token (ignored _) (readToken_spelled read)
        (fun _ => stands.whole ▸ stands) rfl holds
        (induction unended ?_ ?_)
      · rw [holds.whole, ← List.append_assoc]
        rfl
      · exact holds.stop

theorem tiles_of_tokenize (tokenized : tokenize source = .ok tokens) :
    source.Tiles [] tokens := by
  obtain ⟨rest, rfl, yields⟩ := tokenize_eq_ok.mp tokenized
  have holds : source.Holds ([] ++ []) [] source.chars Token.startOfFile.span :=
    ⟨rfl, rfl, rfl⟩
  exact .sentinel rfl rfl holds (yields.tiles rfl rfl rfl)

/-! ## The whole source -/

/-- What stands in front of each token, and behind the last -/
def gaps (size : Nat) : (offset : Nat) → List Token → List Span
  | offset, [] => [⟨offset, size⟩]
  | offset, token :: tokens => ⟨offset, token.start.offset⟩ :: gaps size token.stop tokens

def stretches (size : Nat) : (offset : Nat) → List Token → List Span
  | offset, [] => [⟨offset, size⟩]
  | offset, token :: tokens =>
      ⟨offset, token.start.offset⟩ :: token.span :: stretches size token.stop tokens

/-- The text is that of a token of some kind and value. -/
def Token.IsShownBy (token : Token) (text : String) : Prop :=
  match token.kind with
  | .startOfFile | .endOfFile => text = ""
  | .punctuator _ => token.kind.punctuatorText? = some text ∧ token.value = none
  | .name | .integer | .float => token.value = some text
  | .comment => ∃ words, token.value = some words ∧ text = "#" ++ words ∧
      ∀ char ∈ words.toList, char ∉ ['\n', '\r']
  | .string => ∃ inner, text = "\"" ++ inner ++ "\""
  | .blockString => ∃ inner, text = "\"\"\"" ++ inner ++ "\"\"\""

/-- What the token covers of the source says what the token does, and no word goes on
behind it. -/
structure Source.Tile (source : Source) (token : Token) : Prop where
  start_le : token.start.offset ≤ token.stop
  stop_le : token.stop ≤ source.size
  start_lt : token.lexeme.isSentinel = false → token.start.offset < token.stop
  isShown : token.IsShownBy (source.textOf token.span)
  /-- Alone, the text is read as that token. -/
  read : token.lexeme.isSentinel = false → readToken (source.textOf token.span).toList =
    .ok ⟨token.lexeme, (source.textOf token.span).toList, []⟩
  apart : token.kind ∈ [.name, .integer, .float] →
    ∀ char ∈ (source.textOf ⟨token.stop, source.size⟩).toList.head?, char.isAlphanum =
      false ∧ char ≠ '_'

/-- The tokens tile the source: every byte of it belongs to one of them, or to an ignored
character between them. -/
structure Source.TiledBy (source : Source) (tokens : List Token) : Prop where
  ordered : tokens.Pairwise fun token next => token.stop ≤ next.start.offset
  ignored : ∀ gap ∈ gaps source.size 0 tokens,
    ∀ char ∈ (source.textOf gap).toList, char ∈ ['\ufeff', '\t', ' ', ',', '\n', '\r']
  whole : String.join ((stretches source.size 0 tokens).map source.textOf) = source.body
  tile : ∀ token ∈ tokens, source.Tile token

theorem isIgnored_iff {char : Char} :
    isIgnored char = true ↔ char ∈ ['\ufeff', '\t', ' ', ',', '\n', '\r'] := by
  simp [isIgnored, isLineEnd, or_assoc]

theorem Lexeme.isWord_of_kind {lexeme : Lexeme}
    (isWord : lexeme.kind ∈ [.name, .integer, .float]) :
    lexeme.isWord = true := by
  cases lexeme <;> simp_all [Lexeme.kind, Lexeme.isWord]

theorem Token.isShownBy {token : Token} {text : List Char}
    (isWritten : token.lexeme.IsWritten text) :
    token.IsShownBy (String.ofList text) := by
  cases lexeme : token.lexeme with
  | startOfFile | endOfFile | name | integer | float =>
      simp_all [Token.IsShownBy, Token.kind, Token.value, Lexeme.kind, Lexeme.value,
        Lexeme.IsWritten]
  | punctuator mark =>
      simp_all [Token.IsShownBy, Token.kind, Token.value, Lexeme.kind, Lexeme.value,
        Lexeme.IsWritten, TokenKind.punctuatorText?]
  | comment words =>
      rw [lexeme] at isWritten
      obtain ⟨rfl, oneLine⟩ := isWritten
      simp only [Token.IsShownBy, Token.kind, Token.value, lexeme,
        Lexeme.kind, Lexeme.value]
      refine ⟨words, rfl, String.toList_inj.mp (by simp), fun char member => ?_⟩
      simpa [isLineEnd] using oneLine char member
  | string value =>
      rw [lexeme] at isWritten
      obtain ⟨inner, rfl⟩ := isWritten
      simp only [Token.IsShownBy, Token.kind, lexeme, Lexeme.kind]
      exact ⟨String.ofList inner, String.toList_inj.mp (by simp)⟩
  | blockString value =>
      rw [lexeme] at isWritten
      obtain ⟨inner, rfl⟩ := isWritten
      simp only [Token.IsShownBy, Token.kind, lexeme, Lexeme.kind]
      exact ⟨String.ofList inner, String.toList_inj.mp (by simp [tripleQuote])⟩

theorem Source.Holds.tile {before : List Char} {token : Token} {reading : Reading}
    (holds : source.Holds before reading.text reading.rest token.span)
    (spelled : reading.Spelled)
    (stands : reading.lexeme.isSentinel = false →
      reading.Stands (reading.text ++ reading.rest))
    (lexeme : token.lexeme = reading.lexeme) : source.Tile token := by
  have start : token.start.offset = byteSize before := holds.start
  have stop : token.stop = byteSize before + byteSize reading.text := by
    rw [← byteSize_append]
    exact holds.stop
  have behind : source.textOf ⟨token.stop, source.size⟩ = String.ofList reading.rest :=
    holds.behind.textOf_eq
  refine ⟨by omega, holds.stop_le, fun other => ?_, ?_, fun other => ?_, fun isWord => ?_⟩
  · obtain ⟨char, text, equal⟩ :=
      List.exists_cons_of_ne_nil (stands (lexeme ▸ other)).nonempty
    have positive := char.utf8Size_pos
    rw [equal, byteSize_cons] at stop
    omega
  · rw [holds.textOf_eq]
    exact Token.isShownBy (lexeme ▸ spelled.isWritten)
  · have read := (stands (lexeme ▸ other)).again (.inr breaks_nil)
    rw [holds.textOf_eq, String.toList_ofList, lexeme]
    rwa [List.append_nil] at read
  · rw [behind, String.toList_ofList]
    intro char next
    have other := spelled.ends (lexeme ▸ Lexeme.isWord_of_kind isWord) char next
    simpa [isNameContinue, and_comm] using other

namespace Source.Tiles

variable {before : List Char}

theorem le_start (tiles : source.Tiles before tokens) :
    ∀ token ∈ tokens, byteSize before ≤ token.start.offset := by
  induction tiles with
  | nothing => exact nofun
  | token _ _ _ _ holds _ induction =>
      have start := holds.start
      intro other member
      rcases List.mem_cons.mp member with rfl | member
      · change other.span.start ≥ _
        rw [start, byteSize_append]
        omega
      · have le := induction other member
        rw [byteSize_append, byteSize_append] at le
        omega

theorem ordered (tiles : source.Tiles before tokens) :
    tokens.Pairwise fun token next => token.stop ≤ next.start.offset := by
  induction tiles with
  | nothing => exact .nil
  | @token before gap token tokens reading _ _ _ _ holds behind induction =>
      refine .cons (fun next member => ?_) induction
      have stop : token.stop = byteSize (before ++ gap ++ reading.text) := holds.stop
      rw [stop]
      exact behind.le_start next member

theorem tile (tiles : source.Tiles before tokens) :
    ∀ token ∈ tokens, source.Tile token := by
  induction tiles with
  | nothing => exact nofun
  | token _ spelled stands lexeme holds _ induction =>
      exact List.forall_mem_cons.mpr ⟨holds.tile spelled stands lexeme, induction⟩

/-- The last token ends where the source does. -/
theorem stop_eq {token : Token} (tiles : source.Tiles before (tokens ++ [token])) :
    token.stop = source.size := by
  induction tokens generalizing before with
  | nil =>
      cases tiles with
      | token _ _ _ _ holds rest =>
          cases rest with
          | nothing whole => rw [source.size_eq, ← whole]; exact holds.stop
  | cons first tokens induction =>
      cases tiles with
      | token _ _ _ _ _ rest => exact induction rest

theorem isBoundary (tiles : source.Tiles before tokens) :
    ∀ token ∈ tokens, source.IsBoundary token.start.offset ∧
      source.IsBoundary token.stop := by
  induction tiles with
  | nothing => exact nofun
  | token _ _ _ _ holds _ induction =>
      exact List.forall_mem_cons.mpr ⟨holds.isBoundary, induction⟩

theorem ignored (tiles : source.Tiles before tokens) :
    ∀ gap ∈ gaps source.size (byteSize before) tokens,
      ∀ char ∈ (source.textOf gap).toList, isIgnored char = true := by
  induction tiles with
  | nothing whole =>
      subst whole
      simp [gaps, textOf_end]
  | @token before gap token tokens reading ignored _ _ _ holds _ induction =>
      have stop : token.stop = byteSize (before ++ gap ++ reading.text) := holds.stop
      rw [gaps, stop]
      refine List.forall_mem_cons.mpr ⟨?_, induction⟩
      have front :
          source.textOf ⟨byteSize before, token.start.offset⟩ = String.ofList gap :=
        holds.front.textOf_eq
      rw [front, String.toList_ofList]
      exact List.all_eq_true.mp ignored

/-- What is left of the source is put together from the tokens and what is
between them. -/
theorem join (tiles : source.Tiles before tokens) :
    source.chars = before ++
      (String.join
        ((stretches source.size (byteSize before) tokens).map source.textOf)).toList := by
  induction tiles with
  | nothing whole =>
      subst whole
      simp [stretches, textOf_end]
  | @token before gap token tokens reading _ _ _ _ holds _ induction =>
      have stop : token.stop = byteSize (before ++ gap ++ reading.text) := holds.stop
      have front :
          source.textOf ⟨byteSize before, token.start.offset⟩ = String.ofList gap :=
        holds.front.textOf_eq
      rw [stretches, stop, List.map_cons, List.map_cons, String.join_cons,
        String.join_cons, front, holds.textOf_eq]
      simpa using induction

end Source.Tiles

/-- The tokens of a source tile it. -/
theorem tiledBy_of_tokenize (tokenized : tokenize source = .ok tokens) :
    source.TiledBy tokens := by
  have tiles := tiles_of_tokenize tokenized
  refine ⟨tiles.ordered, fun gap member char inside => ?_, ?_, tiles.tile⟩
  · exact isIgnored_iff.mp (tiles.ignored gap member char inside)
  · exact String.toList_inj.mp tiles.join.symm

theorem field_tiledBy :
    ∃ tokens, tokenize { body := "\ufeffa: [-1, \"\"] # b\r" } = .ok tokens ∧
      Source.TiledBy { body := "\ufeffa: [-1, \"\"] # b\r" } tokens := by
  have tokenized : tokenize { body := "\ufeffa: [-1, \"\"] # b\r" } = .ok _ := rfl
  exact ⟨_, tokenized, tiledBy_of_tokenize tokenized⟩

end GraphQL
