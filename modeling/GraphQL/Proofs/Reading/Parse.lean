import GraphQL.Parse
import GraphQL.Proofs.Reading.Simulation
import GraphQL.Proofs.Reading.Whole

/-! Parsing a source is reading all its tokens. -/

namespace GraphQL

open Rule

variable {α β : Type}

/-! ## The rules for whole sources -/

theorem Parser.bind_assoc {γ : Type} (first : Parser α) (second : α → Parser β)
    (third : β → Parser γ) :
    bind (bind first second) third =
      bind first fun value => bind (second value) third := by
  funext lexer
  unfold bind
  rcases first lexer with ⟨_ | _, _⟩ <;> rfl

theorem Parser.ofRule_alone (rule : Rule α) (limit : Nat) :
    ofRule (Grammar.alone rule) limit =
      bind (ofRule (do expect .startOfFile; rule) limit) fun value =>
        bind (ofRule (expect .endOfFile) limit) fun _ => pure value := by
  change bind _ (fun _ => bind _ _) = bind (bind _ _) _
  rw [bind_assoc]
  rfl

theorem Parser.ofRule_document (limit : Nat) :
    ofRule Grammar.document limit =
      located (bind (ofRule (Grammar.alone Grammar.definitions) limit) fun definitions =>
        pure fun extent => ⟨definitions, extent⟩) := by
  rw [ofRule_alone]
  change located (bind _ fun _ => bind _ fun _ => bind _ _) =
    located (bind (bind (bind _ fun _ => bind _ fun _ => bind _ _) _) _)
  simp only [bind_assoc]
  rfl

/-! ## The end of a source -/

variable {source : Source} {tokens : List Token} {lexer : Lexer} {place : Place}

theorem Source.Yields.inner (yields : source.Yields tokens none) :
    ∃ inner, lexemes tokens = .startOfFile :: (inner ++ [.endOfFile]) ∧
      Inner (source.size + 2) inner := by
  have few := yields.length_le
  obtain ⟨rest, rfl, cursorYields⟩ := yields
  obtain ⟨rest, last, rfl, atEnd, others⟩ := cursorYields.ends
  refine ⟨lexemes rest, ?_, ?_, ?_⟩
  · have startSeen : lexemes [Token.startOfFile] = [.startOfFile] := rfl
    have endSeen : lexemes [last] = [.endOfFile] := by
      simp [lexemes, significant, Token.isSignificant, atEnd, Lexeme.isSignificant,
        Lexeme.isComment]
    rw [← List.singleton_append, lexemes_append, lexemes_append, startSeen, endSeen]
    rfl
  · have fewer := length_lexemes_le rest
    rw [List.length_cons, List.length_append, List.length_singleton] at few
    omega
  · exact endOfFile_not_mem_lexemes others

theorem Lexer.Stands.tokens_eq (stands : lexer.Stands source tokens none place)
    (yields : source.Yields tokens none) (atEnd : lexer.current.isEndOfFile = true) :
    lexer.after = [] ∧ lexer.tokens = tokens := by
  obtain ⟨unread, split, _, _⟩ := stands.unread
  have whole := yields
  rw [split, Lexer.tokens, List.append_assoc, List.cons_append] at whole
  have nothing := (whole.nothing_after atEnd).1
  obtain ⟨after, rfl⟩ := List.append_eq_nil_iff.mp nothing
  exact ⟨after, by rw [split, List.append_nil]⟩

theorem Parser.ofRule_expect_of_ne {kind : TokenKind}
    (other : lexer.current.lexeme.kind ≠ kind) (limit : Nat) :
    ofRule (expect kind) limit lexer =
      (.error (.grammatical (.expected kind lexer.current.lexeme) lexer.current.ordinal),
        lexer) := by
  change run _ (if lexer.current.lexeme.kind = kind then advance
    else Rule.refuse .current (.expected kind lexer.current.lexeme)) lexer = _
  rw [if_neg other]
  rfl

theorem Parser.ofRule_expect_of_eq {kind : TokenKind}
    (same : lexer.current.lexeme.kind = kind) (limit : Nat) :
    ofRule (expect kind) limit lexer =
      ((lexer.advance.1.mapError .lexical).map fun _ => (), lexer.advance.2) := by
  change run _ (if lexer.current.lexeme.kind = kind then advance
    else Rule.refuse .current (.expected kind lexer.current.lexeme)) lexer = _
  rw [if_pos same]
  simp only [run, bind, ask]
  rcases lexer.advance with ⟨error | token, there⟩ <;> rfl

theorem Parser.ofRule_expect_end_of_unended (unended : lexer.current.isEndOfFile = false)
    (limit : Nat) :
    ofRule (expect .endOfFile) limit lexer =
      (.error (.grammatical
        (.expected .endOfFile lexer.current.lexeme) lexer.current.ordinal), lexer) := by
  refine ofRule_expect_of_ne (fun equal => ?_) limit
  rw [Token.isEndOfFile] at unended
  cases found : lexer.current.lexeme <;> simp_all [Lexeme.kind, Lexeme.isEndOfFile]

theorem Parser.ofRule_expect_end (stands : lexer.Stands source tokens none place)
    (yields : source.Yields tokens none) (limit : Nat) :
    ofRule (expect .endOfFile) limit lexer =
      if place.current = .endOfFile then (.ok (), { lexer with last := lexer.current })
      else (.error (.grammatical (.expected .endOfFile place.current) place.ordinal),
        lexer) := by
  by_cases atEnd : place.current = .endOfFile
  · have isEnd : lexer.current.isEndOfFile = true := by
      rw [Token.isEndOfFile, stands.current_eq, atEnd]
      rfl
    have nothing := (stands.tokens_eq yields isEnd).1
    rw [if_pos atEnd]
    rw [ofRule_expect_of_eq (by rw [stands.current_eq, atEnd]; rfl)]
    simp only [Lexer.advance, Lexer.lookahead, isEnd, if_true, Lexer.step, nothing,
      List.dropWhile_nil]
    rfl
  · have unended : lexer.current.isEndOfFile = false := by
      rw [Token.isEndOfFile, stands.current_eq]
      cases found : place.current <;> simp_all [Lexeme.isEndOfFile]
    rw [if_neg atEnd, ofRule_expect_end_of_unended unended, stands.current_eq,
      stands.ordinal yields]

/-! ## Sources without a fault -/

/-- What comes of parsing a whole source, from what comes of reading its tokens -/
inductive Comes (source : Source) (tokens : List Token) :
    Except (Option Failure) α → Except Failure α × Lexer → Prop
  | value {value : α} {lexer} :
      lexer.source = source → lexer.significantTokens = significant tokens →
      lexer.last.ordinal + 1 = (significant tokens).length →
      Comes source tokens (.ok value) (.ok value, lexer)
  | failure {failure : Failure} {lexer} : lexer.source = source → failure.Within lexer →
      lexer.significantTokens <+: significant tokens →
      Comes source tokens (.error (some failure)) (.error failure, lexer)
  | stuck {result} : Comes source tokens (.error none) result

theorem Lexer.Stands.significantTokens_prefix {ending : Option LexicalError}
    (stands : lexer.Stands source tokens ending place) :
    lexer.significantTokens <+: significant tokens := by
  obtain ⟨unread, rfl, _, _⟩ := stands.unread
  exact ⟨significant unread, (significant_append ..).symm⟩

theorem comes_alone (yields : source.Yields tokens none) {ahead : List Lexeme}
    (split : lexemes tokens = .startOfFile :: ahead) (nonempty : ahead ≠ [])
    (rule : Rule α) (limit : Nat) :
    Comes source tokens (rule.readWhole limit (source.size + 2) ahead)
      (Parser.ofRule (Grammar.alone rule) limit (.start source)) := by
  have agree := Simulates.ofRule yields (do expect .startOfFile; rule) limit
    (Lexer.stands_start yields)
  have opened : (do expect .startOfFile; rule).readAt (source.terms none limit) limit
      ⟨0, lexemes tokens⟩ =
        rule.readAt (.whole extentBetween limit (source.size + 2)) limit ⟨1, ahead⟩ := by
    obtain ⟨next, rest, rfl⟩ := List.exists_cons_of_ne_nil nonempty
    rw [split]
    rfl
  rw [opened] at agree
  rw [Parser.ofRule_alone, Parser.bind, Rule.readWhole]
  generalize rule.readAt _ limit _ = outcome at agree
  generalize Parser.ofRule _ limit _ = result at agree
  cases agree with
  | stuck => exact .stuck
  | failure within stands =>
      exact .failure stands.source_eq within stands.significantTokens_prefix
  | @value value lexer after stands =>
      have closing := Parser.ofRule_expect_end stands yields limit
      simp only [Parser.bind, closing]
      split
      next atEnd =>
        have isEnd : lexer.current.isEndOfFile = true := by
          rw [Token.isEndOfFile, stands.current_eq, atEnd]
          rfl
        obtain ⟨nothing, all⟩ := stands.tokens_eq yields isEnd
        have seen : lexer.significantTokens = significant tokens :=
          congrArg significant all
        refine .value stands.source_eq seen ?_
        rw [stands.ordinal yields, ← all, Lexer.tokens, significant_append,
          List.length_append, stands.behind, nothing]
        simp [significant, stands.isSignificant]
      next notEnd =>
        exact .failure stands.source_eq stands.ordinal_lt stands.significantTokens_prefix

theorem comes_document (yields : source.Yields tokens none) {ahead : List Lexeme}
    (split : lexemes tokens = .startOfFile :: ahead) (nonempty : ahead ≠ [])
    (limit : Nat) :
    Comes source tokens
      ((Grammar.definitions.readWhole limit (source.size + 2) ahead).map
        fun definitions =>
          Document.mk definitions (extentBetween 0 (significant tokens).length))
      (Parser.ofRule Grammar.document limit (.start source)) := by
  have comes := comes_alone yields split nonempty Grammar.definitions limit
  rw [Parser.ofRule_document, Parser.located, Parser.bind, Parser.bind]
  generalize Grammar.definitions.readWhole limit _ _ = outcome at comes
  generalize Parser.ofRule _ limit _ = result at comes
  cases comes with
  | stuck => exact .stuck
  | failure source_eq within seen => exact .failure source_eq within seen
  | @value definitions lexer source_eq seen last =>
      have extent : (⟨0, lexer.last.ordinal⟩ : Extent) =
          extentBetween 0 (significant tokens).length := by
        rw [extentBetween, ← last]
        rfl
      change Comes source tokens _
        (.ok (Document.mk definitions ⟨0, lexer.last.ordinal⟩), lexer)
      rw [extent]
      exact .value source_eq seen last

/-! ## What parsers keep -/

/-- Looking ahead and moving on keep it true of a lexer. -/
structure Lexer.Lasts (kept : Lexer → Prop) : Prop where
  lookahead : ∀ lexer, kept lexer → kept lexer.lookahead.2
  advance : ∀ lexer, kept lexer → kept lexer.advance.2

/-- The parser keeps it true of a lexer. -/
def Parser.Keeps (kept : Lexer → Prop) (parser : Parser α) : Prop :=
  ∀ lexer, kept lexer → kept (parser lexer).2

namespace Parser.Keeps

variable {kept : Lexer → Prop}

theorem pure (value : α) : Keeps kept (Parser.pure value) := fun _ => id

theorem bind {first : Parser α} {second : α → Parser β} (keeps : Keeps kept first)
    (keeps' : ∀ value, Keeps kept (second value)) :
    Keeps kept (Parser.bind first second) := by
  intro lexer start
  have after := keeps lexer start
  unfold Parser.bind
  split
  next equal =>
    rw [equal] at after
    exact keeps' _ _ after
  next equal =>
    rw [equal] at after
    exact after

theorem look (lasts : Lexer.Lasts kept) (vantage : Vantage) :
    Keeps kept (Parser.look vantage) := by
  cases vantage with
  | last | current => exact fun _ => id
  | ahead => exact lasts.lookahead

theorem refuse (lasts : Lexer.Lasts kept) (blamed : Vantage) (fault : GrammarFault) :
    Keeps kept (Parser.refuse blamed fault : Parser α) :=
  (look lasts blamed).bind fun _ _ => id

theorem repeatWhile {promises : Lexeme → Bool} {item : Parser α} (keeps : Keeps kept item)
    (limit : Nat) : Keeps kept (Parser.repeatWhile promises item limit) := by
  induction limit with
  | zero => exact pure []
  | succ limit induction =>
      intro lexer start
      unfold Parser.repeatWhile
      split
      · exact keeps.bind (fun _ => induction.bind fun _ => pure _) lexer start
      · exact start

theorem run (lasts : Lexer.Lasts kept) {deeper : (part : Nonterminal) → Parser part.Tree}
    (below : ∀ part, Keeps kept (deeper part)) (rule : Rule α) :
    Keeps kept (rule.run deeper) := by
  induction rule with
  | pure value => exact pure value
  | bind first second before behind => exact before.bind behind
  | peek vantage => exact (look lasts vantage).bind fun _ => pure _
  | advance => exact bind lasts.advance fun _ => pure ()
  | refuse blamed fault => exact refuse lasts blamed fault
  | located rule induction => exact fun lexer => induction.bind (fun _ _ => id) lexer
  | repeatWhile promises item induction =>
      exact fun lexer => induction.repeatWhile _ lexer
  | nested part => exact below part

theorem nonterminal (lasts : Lexer.Lasts kept) (limit depth : Nat) (part : Nonterminal) :
    Keeps kept (Parser.nonterminal limit depth part) := by
  induction depth generalizing part with
  | zero => exact refuse lasts _ _
  | succ depth induction => exact run lasts induction _

/-- To parse is to look ahead and to move on, and nothing else. -/
theorem ofRule (lasts : Lexer.Lasts kept) (rule : Rule α) (limit : Nat) :
    Keeps kept (Parser.ofRule rule limit) :=
  run lasts (nonterminal lasts limit limit) rule

end Parser.Keeps

/-! ## Sources with a fault -/

theorem Lexer.lasts_endless : Lexer.Lasts Lexer.Endless :=
  ⟨fun _ endless => endless.lookahead, fun _ endless => endless.advance⟩

theorem Parser.ofRule_alone_ne_ok {error : LexicalError}
    (yields : source.Yields tokens (some error))
    (rule : Rule α) (limit : Nat) (value : α) (lexer : Lexer) :
    ofRule (Grammar.alone rule) limit (.start source) ≠ (.ok value, lexer) := by
  rw [ofRule_alone, bind]
  have endless := Keeps.ofRule Lexer.lasts_endless (do expect .startOfFile; rule) limit _
    (Lexer.endless_start yields)
  generalize ofRule (do expect .startOfFile; rule) limit (.start source) =
    result at endless ⊢
  obtain ⟨_ | value', middle⟩ := result
  · intro equal
    cases equal
  · simp [bind, ofRule_expect_end_of_unended (endless.1 _ (List.mem_cons_self ..))]

/-! ## What is parsed -/

/-- The tokens of a source without a fault, and what those say that stand between its
beginning and its end -/
structure Source.Consists (source : Source) (tokens : List Token)
    (inner : List Lexeme) : Prop where
  yields : source.Yields tokens none
  lexemes_eq : lexemes tokens = .startOfFile :: (inner ++ [.endOfFile])

namespace Source.Consists

variable {inner : List Lexeme}

theorem inside (consists : source.Consists tokens inner) :
    Inner (source.size + 2) inner := by
  obtain ⟨inner', lexemes_eq, inside⟩ := consists.yields.inner
  rw [consists.lexemes_eq] at lexemes_eq
  obtain rfl : inner = inner' := by simpa using lexemes_eq
  exact inside

theorem length_eq (consists : source.Consists tokens inner) :
    (significant tokens).length = inner.length + 2 := by
  have length := congrArg List.length consists.lexemes_eq
  simpa [lexemes] using length

theorem unique {tokens' : List Token} {inner' : List Lexeme}
    (consists : source.Consists tokens inner)
    (consists' : source.Consists tokens' inner') :
    tokens' = tokens ∧ inner' = inner := by
  obtain ⟨rfl, _⟩ := consists'.yields.unique consists.yields
  have same := consists'.lexemes_eq
  rw [consists.lexemes_eq] at same
  exact ⟨rfl, by simpa using same.symm⟩

end Source.Consists

theorem Source.Yields.consists (yields : source.Yields tokens none) :
    ∃ inner, source.Consists tokens inner := by
  obtain ⟨inner, lexemes_eq, _⟩ := yields.inner
  exact ⟨inner, yields, lexemes_eq⟩

section

variable {Tree : Type → Type} {rule : Rule (Tree Extent)} {options : ParseOptions}
variable {map : (Extent → ParseOptions.Note) → Tree Extent → Tree ParseOptions.Note}

theorem readBy_of_ok {value : Tree Extent}
    (comes : Comes source tokens (.ok value)
      (Parser.ofRule rule options.maxNestingDepth (.start source))) :
    (readBy rule map options (.start source)).1 =
      .ok (map (options.note (significant tokens).toArray) value) := by
  unfold readBy
  generalize Parser.ofRule rule _ _ = result at comes
  cases comes with
  | value source_eq seen last => simp only [seen]

/-- A token that is blamed has the same number among all tokens as among those that
have been read. -/
theorem Failure.Within.diagnostic_eq {failure : Failure} (within : failure.Within lexer)
    (seen : lexer.significantTokens <+: significant tokens) :
    failure.diagnostic source options lexer.significantTokens.toArray =
      failure.diagnostic source options (significant tokens).toArray := by
  cases failure with
  | lexical error => rfl
  | grammatical fault blamed =>
      have same : lexer.significantTokens[blamed]? = (significant tokens)[blamed]? := by
        obtain ⟨rest, whole⟩ := seen
        rw [← whole, List.getElem?_append_left within]
      simp only [Failure.diagnostic, List.getElem?_toArray, same]

theorem readBy_of_error {failure : Failure}
    (comes : Comes source tokens (.error (some failure))
      (Parser.ofRule rule options.maxNestingDepth (.start source))) :
    (readBy rule map options (.start source)).1 =
      .error (failure.diagnostic source options (significant tokens).toArray) := by
  unfold readBy
  generalize Parser.ofRule rule _ _ = result at comes
  cases comes with
  | failure source_eq within seen => simp only [source_eq, within.diagnostic_eq seen]

theorem readBy_eq_ok {outcome : Except (Option Failure) (Tree Extent)}
    {result : Tree ParseOptions.Note}
    (comes : Comes source tokens outcome
      (Parser.ofRule rule options.maxNestingDepth (.start source)))
    (known : outcome ≠ .error none) :
    (readBy rule map options (.start source)).1 = .ok result ↔
      ∃ value, outcome = .ok value ∧
        result = map (options.note (significant tokens).toArray) value := by
  rcases outcome with (_ | failure) | value
  · exact (known rfl).elim
  · rw [readBy_of_error comes]
    simp
  · rw [readBy_of_ok comes]
    simp [eq_comm]

theorem consists_of_readBy_eq_ok {result : Tree ParseOptions.Note}
    (fails : ∀ {tokens error}, source.Yields tokens (some error) → ∀ value lexer,
      Parser.ofRule rule options.maxNestingDepth (.start source) ≠ (.ok value, lexer))
    (parsed : (readBy rule map options (.start source)).1 = .ok result) :
    ∃ tokens inner, source.Consists tokens inner := by
  obtain ⟨tokens, ending, yields⟩ := source.exists_yields
  cases ending with
  | none => exact ⟨tokens, yields.consists⟩
  | some error =>
      have fails := fails yields
      unfold readBy at parsed
      generalize Parser.ofRule rule _ _ = outcome at fails parsed
      obtain ⟨_ | value, lexer⟩ := outcome
      · cases parsed
      · exact (fails value lexer rfl).elim

variable {inner : List Lexeme}

theorem readBy_alone_eq_ok {phrase : Phrase (Tree Extent)} {profile : Profile}
    {result : Tree ParseOptions.Note} (consists : source.Consists tokens inner)
    (reads : Reads extentBetween options.maxNestingDepth rule phrase profile)
    (bare : ¬ Shown profile.tails .endOfFile) :
    (readBy (Grammar.alone rule) map options (.start source)).1 = .ok result ↔
      ∃ value, phrase.Holds options.maxNestingDepth 1 inner [.endOfFile] value ∧
        result = map (options.note (significant tokens).toArray) value := by
  rw [readBy_eq_ok (comes_alone consists.yields consists.lexemes_eq (by simp) rule _)
    (reads.readWhole_ne_none consists.inside)]
  simp only [reads.readWhole_eq_ok bare consists.inside]

end

variable {inner : List Lexeme} {options : ParseOptions}

/-! ## Values, types and documents -/

theorem parseValue_eq_ok (consists : source.Consists tokens inner)
    {result : Value ParseOptions.Note} :
    parseValue source options = .ok result ↔
      ∃ value, (Phrase.node extentBetween .variable .value).Holds
        options.maxNestingDepth 1 inner
          [.endOfFile] value ∧
        result = value.map (options.note (significant tokens).toArray) :=
  readBy_alone_eq_ok consists
    (.value (Reads.nestedParts extentBetween options.maxNestingDepth) .variable)
    (by decide)

theorem parseType_eq_ok (consists : source.Consists tokens inner)
    {result : TypeReference ParseOptions.Note} :
    parseType source options = .ok result ↔
      ∃ type, (Phrase.node extentBetween .constant .type).Holds
        options.maxNestingDepth 1 inner
          [.endOfFile] type ∧
        result = type.map (options.note (significant tokens).toArray) :=
  readBy_alone_eq_ok consists
    (.typeReference (Reads.nestedParts extentBetween options.maxNestingDepth))
    (by decide)

theorem Document.derives_iff {extentOf : Nat → Nat → Extent} {depth : Nat}
    {document : Document Extent} :
    (Node.document document).Derives extentOf depth .variable
        ⟨0, .startOfFile :: (inner ++ [.endOfFile])⟩ ⟨inner.length + 2, []⟩ ↔
      (document.definitions ≠ [] ∧
        (Phrase.node extentOf .variable Node.definition).star.Holds depth 1
        inner [.endOfFile] document.definitions) ∧
        document.location = extentOf 0 (inner.length + 2) := by
  have after : ∀ middle : Place, middle.Covers [.endOfFile] ⟨inner.length + 2, []⟩ ↔
      middle = ⟨1 + inner.length, [.endOfFile]⟩ := by
    rintro ⟨ordinal, ahead⟩
    simp only [Place.Covers, List.append_nil, List.length_singleton, Place.mk.injEq,
      Nat.add_comm 1]
    grind
  rw [Node.derives_iff rfl]
  simp only [Node.parts, Document.parts, List.cons_append, Spells.token_iff,
    Spelling.Fits,
    Spells.provided_iff, Spells.append_iff, Spells.children_iff,
      Spells.nil_iff, Phrase.Holds]
  constructor
  · rintro ⟨⟨_, _, covers, rfl, nonempty, middle, definitions, _, _, covers', rfl, rfl⟩,
      location⟩
    obtain ⟨_, rfl⟩ := Place.covers_cons.mp covers
    obtain rfl := (after _).mp covers'
    exact ⟨⟨by simpa using nonempty, definitions⟩, location⟩
  · rintro ⟨⟨nonempty, definitions⟩, location⟩
    exact ⟨⟨_, _, Place.covers_cons.mpr ⟨rfl, rfl⟩, rfl, by
      simpa using nonempty, _, definitions, _, _,
      (after _).mpr rfl, rfl, rfl⟩, location⟩

/-- A document is derived from all tokens, and nothing else comes of them. -/
theorem parse_eq_ok (consists : source.Consists tokens inner)
    {result : Document ParseOptions.Note} :
    parse source options = .ok result ↔
      ∃ document, (Node.document document).Derives extentBetween
        options.maxNestingDepth .variable
          ⟨0, lexemes tokens⟩ ⟨inner.length + 2, []⟩ ∧
        result = document.map (options.note (significant tokens).toArray) := by
  have reads : Reads extentBetween options.maxNestingDepth Grammar.definitions _ _ :=
    .definitions
  have read : ∀ value,
      Grammar.definitions.readWhole options.maxNestingDepth (source.size + 2)
      (inner ++ [.endOfFile]) = .ok value ↔ _ :=
    fun value => reads.readWhole_eq_ok (by decide) consists.inside
  have known := reads.readWhole_ne_none consists.inside
  have comes :=
    comes_document consists.yields consists.lexemes_eq (by simp) options.maxNestingDepth
  rw [consists.length_eq] at comes
  unfold parse readDocument
  rw [readBy_eq_ok comes, consists.lexemes_eq]
  · refine exists_congr fun document => and_congr_left fun _ => ?_
    rw [Document.derives_iff]
    constructor
    · intro outcome
      generalize Grammar.definitions.readWhole _ _ _ = readings at read outcome
      rcases readings with failure | definitions
      · cases outcome
      · cases outcome
        exact ⟨(read definitions).mp rfl, rfl⟩
    · rintro ⟨holds, location⟩
      rw [(read document.definitions).mpr holds, ← location]
      rfl
  · generalize Grammar.definitions.readWhole _ _ _ = readings at known
    rcases readings with (_ | failure) | definitions
    · exact (known rfl).elim
    · nofun
    · nofun

theorem parse_definitions_iff (consists : source.Consists tokens inner)
    {definitions : List (Definition ParseOptions.Note)} :
    (∃ document, parse source options = .ok document ∧
      document.definitions = definitions) ↔
      ∃ trees, (trees ≠ [] ∧
        (Phrase.node extentBetween .variable Node.definition).star.Holds
          options.maxNestingDepth 1 inner [.endOfFile] trees) ∧
        definitions = trees.map (·.map (options.note (significant tokens).toArray)) := by
  constructor
  · rintro ⟨_, parsed, rfl⟩
    obtain ⟨document, derives, rfl⟩ := (parse_eq_ok consists).mp parsed
    rw [consists.lexemes_eq, Document.derives_iff] at derives
    exact ⟨document.definitions, derives.1, rfl⟩
  · rintro ⟨trees, holds, rfl⟩
    refine ⟨_, (parse_eq_ok consists).mpr
      ⟨⟨trees, extentBetween 0 (inner.length + 2)⟩, ?_, rfl⟩, rfl⟩
    rw [consists.lexemes_eq, Document.derives_iff]
    exact ⟨holds, rfl⟩

theorem consists_of_parseValue {result : Value ParseOptions.Note}
    (parsed : parseValue source options = .ok result) :
    ∃ tokens inner, source.Consists tokens inner :=
  consists_of_readBy_eq_ok (fun yields => Parser.ofRule_alone_ne_ok yields _ _) parsed

theorem consists_of_parseType {result : TypeReference ParseOptions.Note}
    (parsed : parseType source options = .ok result) :
    ∃ tokens inner, source.Consists tokens inner :=
  consists_of_readBy_eq_ok (fun yields => Parser.ofRule_alone_ne_ok yields _ _) parsed

theorem consists_of_parse {result : Document ParseOptions.Note}
    (parsed : parse source options = .ok result) :
    ∃ tokens inner, source.Consists tokens inner := by
  refine consists_of_readBy_eq_ok (fun yields document lexer => ?_) parsed
  have fails :=
    Parser.ofRule_alone_ne_ok yields Grammar.definitions options.maxNestingDepth
  rw [Parser.ofRule_document, Parser.located, Parser.bind, Parser.bind]
  generalize Parser.ofRule _ options.maxNestingDepth _ = outcome at fails
  obtain ⟨_ | definitions, after⟩ := outcome
  · intro equal
    cases equal
  · exact (fails definitions after rfl).elim

end GraphQL
