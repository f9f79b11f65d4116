import GraphQL.Proofs.Lexing.Calls
import GraphQL.Proofs.Parsing.Layout
import GraphQL.Proofs.Reading.Truncation

/-! Parsing and reading the tokens agree on faults.

A parser reads tokens as it needs them, so a token that does not fit may be reported
before a fault further on is met. It never reads more than one token ahead, and it meets
the fault itself only if all the tokens in front of it fit. -/

namespace GraphQL

open Text

variable {α : Type} {source : Source} {tokens : List Token} {ending : Option LexicalError}
variable {error : LexicalError}

/-! ## Tokens in front of a fault -/

theorem Cursor.Yields.length_le_of_fault {cursor : Cursor}
    (yields : cursor.Yields tokens (some error)) :
    tokens.length ≤ byteSize cursor.rest := by
  generalize ended : some error = ending at yields
  induction yields with
  | fault => exact Nat.zero_le _
  | last => cases ended
  | more next notEnd _ induction =>
      have le := induction ended
      have lt := byteSize_lt_of_next next notEnd
      rw [List.length_cons]
      omega

theorem Cursor.Yields.start_lt_fault {cursor : Cursor}
    (yields : cursor.Yields tokens (some error)) :
    cursor.position.offset ≤ error.offset ∧
      ∀ token ∈ tokens, token.start.offset < error.offset := by
  generalize ended : some error = ending at yields
  induction yields with
  | @fault cursor _ next =>
      cases ended
      refine ⟨?_, nofun⟩
      unfold Cursor.next at next
      split at next
      next =>
        cases next
        simp only [Position.after]
        omega
      next => cases next
  | last => cases ended
  | @more cursor token after tokens _ next notEnd _ induction =>
      obtain ⟨le, others⟩ := induction ended
      obtain ⟨reading, stands, rfl, rfl⟩ := stands_of_next next notEnd
      obtain ⟨char, text, equal⟩ := List.exists_cons_of_ne_nil stands.nonempty
      have positive := char.utf8Size_pos
      simp only [behind, Position.after, tokenStart, equal, byteSize_cons] at le
      refine ⟨by omega, List.forall_mem_cons.mpr ⟨?_, others⟩⟩
      simp only [tokenOf, tokenStart, Position.after]
      omega

namespace Source.Yields

theorem unended (yields : source.Yields tokens (some error)) :
    ∀ token ∈ tokens, token.isEndOfFile = false := by
  obtain ⟨rest, rfl, yields⟩ := yields
  exact List.forall_mem_cons.mpr ⟨rfl, yields.ends⟩

theorem inner_of_fault (yields : source.Yields tokens (some error)) :
    ∃ inner, lexemes tokens = .startOfFile :: inner ∧ Inner (source.size + 2) inner := by
  have unended := yields.unended
  obtain ⟨rest, rfl, yields⟩ := yields
  have few := yields.length_le_of_fault
  refine ⟨lexemes rest, rfl, ?_,
    endOfFile_not_mem_lexemes (List.forall_mem_cons.mp unended).2⟩
  rw [source.size_eq]
  exact Nat.add_le_add_right (Nat.le_trans (length_lexemes_le rest) few) 2

end Source.Yields

/-! ## How far a lexer has read -/

theorem Cursor.not_wanted_of_passed (wanted : Lexeme → Bool) (limit : Nat)
    (cursor : Cursor) :
    ∀ token ∈ (cursor.scan wanted limit).passed, wanted token.lexeme = false := by
  induction limit generalizing cursor with
  | zero =>
      rw [Cursor.scan]
      split
      next => exact List.forall_mem_nil _
      next => exact List.forall_mem_nil _
  | succ limit induction =>
      rw [Cursor.scan]
      split
      next => exact List.forall_mem_nil _
      next token after _ =>
        split
        next => exact List.forall_mem_nil _
        next other =>
          exact List.forall_mem_cons.mpr ⟨by simpa using other, induction after⟩

namespace Lexer

/-- Of the tokens read behind the current one, the grammar sees one at most. -/
def ReadsOneAhead (lexer : Lexer) : Prop := (significant lexer.after).length ≤ 1

theorem ReadsOneAhead.lookahead {lexer : Lexer} (one : lexer.ReadsOneAhead) :
    lexer.lookahead.2.ReadsOneAhead := by
  unfold Lexer.lookahead
  split
  next => exact one
  next =>
  split
  next => exact one
  next found =>
    let stretch := lexer.frontier.scanSignificant lexer.source
    have missing : significant lexer.after = [] :=
      significant_eq_nil (by simpa using List.find?_eq_none.mp found)
    have passed : significant stretch.passed = [] :=
      significant_eq_nil (Cursor.not_wanted_of_passed _ _ lexer.frontier)
    change (significant (lexer.after ++ stretch.tokens)).length ≤ 1
    rw [significant_append, missing, List.nil_append, Stretch.tokens]
    split
    next token _ =>
      rw [significant_append, passed, List.nil_append]
      exact List.length_filter_le _ [token]
    next => rw [passed]; exact Nat.zero_le 1

theorem ReadsOneAhead.step {lexer : Lexer} (one : lexer.ReadsOneAhead) :
    lexer.step.ReadsOneAhead := by
  unfold Lexer.step
  split
  next => exact one
  next token after found =>
    refine Nat.le_trans (List.Sublist.length_le ?_) one
    have fewer : after.Sublist (lexer.after.dropWhile (!·.isSignificant)) :=
      found ▸ List.sublist_cons_self ..
    exact (fewer.trans (List.dropWhile_sublist _)).filter _

theorem lasts_readsOneAhead : Lasts ReadsOneAhead where
  lookahead _ one := one.lookahead
  advance lexer one := by
    have ahead := one.lookahead
    unfold Lexer.advance
    split
    next equal =>
      rw [equal] at ahead
      exact ahead.step
    next equal =>
      rw [equal] at ahead
      exact ahead

theorem lasts_moves (yields : source.Yields tokens ending) :
    Lasts fun lexer => ∃ ahead, lexer.Moves source tokens ending ahead where
  lookahead _ := fun ⟨_, moves⟩ => moves.call yields .lookahead
  advance _ := fun ⟨_, moves⟩ => moves.call yields .advance

end Lexer

/-! ## Where a parse ends -/

/-- What comes of parsing a source as a whole, with a fault behind its
tokens or without -/
inductive Ends (source : Source) (tokens : List Token) (ending : Option LexicalError) :
    Except Failure α × Lexer → Prop
  | value {value : α} {lexer} : lexer.source = source → ending = none →
      lexer.significantTokens = significant tokens →
      Ends source tokens ending (.ok value, lexer)
  | fault {error lexer} : lexer.source = source → ending = some error →
      Ends source tokens ending (.error (.lexical error), lexer)
  | misfit {fault blamed lexer} : lexer.source = source → 0 < blamed →
      blamed < lexer.significantTokens.length →
      lexer.significantTokens <+: significant tokens →
      Ends source tokens ending (.error (.grammatical fault blamed), lexer)

namespace Reads

variable {rule : Rule α} {phrase : Phrase α} {profile : Profile} {limit bound : Nat}
variable {inner : List Lexeme}

theorem readWhole_positive (reads : Reads extentBetween limit rule phrase profile)
    (inside : Inner bound inner) {failure : Option Failure}
    (outcome : rule.readWhole limit bound (inner ++ [.endOfFile]) = .error failure) :
    ∃ fault blamed, failure = some (.grammatical fault blamed) ∧ 0 < blamed := by
  unfold Rule.readWhole at outcome
  split at outcome
  next read =>
    split at outcome
    next => cases outcome
    next =>
      cases outcome
      obtain ⟨covered, covers⟩ := Rule.readAt_covers read
      exact ⟨_, _, rfl, covers.le⟩
  next read =>
    cases outcome
    obtain ⟨fault, blamed, equal, le, _⟩ := reads.reads.fails inside.closed trivial read
    exact ⟨fault, blamed, equal, le⟩

theorem ends_of_consists (reads : Reads extentBetween limit rule phrase profile)
    (consists : source.Consists tokens inner) :
    Ends source tokens none
      (Parser.ofRule (Grammar.alone rule) limit (.start source)) := by
  have comes := comes_alone consists.yields consists.lexemes_eq (by simp) rule limit
  have fails : ∀ failure, rule.readWhole limit (source.size + 2) (inner ++ [.endOfFile]) =
      .error failure →
      ∃ fault blamed, failure = some (.grammatical fault blamed) ∧ 0 < blamed :=
    fun failure => reads.readWhole_positive consists.inside
  generalize rule.readWhole limit _ _ = outcome at comes fails
  generalize Parser.ofRule _ limit _ = result at comes
  cases comes with
  | value source_eq seen _ => exact .value source_eq rfl seen
  | failure source_eq within seen =>
      obtain ⟨fault, blamed, equal, positive⟩ := fails _ rfl
      cases equal
      exact .misfit source_eq positive within seen
  | stuck =>
      obtain ⟨_, _, equal, _⟩ := fails none rfl
      cases equal

/-- Reading fails at the fault, or where it would fail without. -/
theorem readAt_upTo_fails (reads : Reads extentBetween limit rule phrase profile)
    (inside : Inner bound inner) (nonempty : inner ≠ []) {failure : Option Failure}
    (outcome : rule.readAt (Terms.upTo (.whole extentBetween limit bound) error) limit
      ⟨1, inner⟩ =
      .error failure) :
    failure = some (.lexical error) ∨
      ∃ fault blamed, failure = some (.grammatical fault blamed) ∧ 0 < blamed := by
  have upTo : Truncates error [.endOfFile]
      (rule.readAt (Terms.upTo (.whole extentBetween limit bound) error) limit ⟨1, inner⟩)
      (rule.readAt (.whole extentBetween limit bound) limit ⟨1, inner ++ [.endOfFile]⟩) :=
    Reader.UpTo.readAt rule limit nonempty
  rw [outcome] at upTo
  generalize read : rule.readAt (.whole extentBetween limit bound) limit
    ⟨1, inner ++ [.endOfFile]⟩ =
    outcome' at upTo
  cases upTo with
  | fault => exact .inl rfl
  | failure =>
      obtain ⟨fault, blamed, equal, le, _⟩ := reads.reads.fails inside.closed trivial read
      exact .inr ⟨fault, blamed, equal, le⟩

/-- A source with a fault is read like one that ends there, as long as the
fault is not met. -/
theorem ends_of_fault (reads : Reads extentBetween limit rule phrase profile)
    (yields : source.Yields tokens (some error)) :
    Ends source tokens (some error)
      (Parser.ofRule (Grammar.alone rule) limit (.start source)) := by
  obtain ⟨inner, said, inside⟩ := yields.inner_of_fault
  have agree := Simulates.ofRule yields (do
    Rule.expect .startOfFile; rule) limit (Lexer.stands_start yields)
  rw [said] at agree
  rw [Parser.ofRule_alone, Parser.bind]
  generalize Parser.ofRule (do Rule.expect .startOfFile; rule) limit _ = result at agree
  by_cases empty : inner = []
  · subst empty
    change Agree source tokens (some error)
      (.error (some (.lexical error))) result at agree
    cases agree with
    | failure _ stands => exact .fault stands.source_eq rfl
  · have opened :
        (do Rule.expect .startOfFile; rule).readAt (source.terms (some error) limit) limit
        ⟨0, .startOfFile :: inner⟩ =
          rule.readAt (Terms.upTo (.whole extentBetween limit (source.size + 2)) error)
            limit ⟨1, inner⟩ := by
      obtain ⟨next, rest, rfl⟩ := List.exists_cons_of_ne_nil empty
      rfl
    rw [opened] at agree
    generalize read : rule.readAt _ limit ⟨1, inner⟩ = outcome at agree
    cases agree with
    | stuck =>
        rcases reads.readAt_upTo_fails inside empty read with equal | ⟨_, _, equal, _⟩
        · cases equal
        · cases equal
    | failure within stands =>
        rcases reads.readAt_upTo_fails inside empty read with equal | ⟨fault, blamed,
          equal, positive⟩
        · cases equal
          exact .fault stands.source_eq rfl
        · cases equal
          exact .misfit stands.source_eq positive within stands.significantTokens_prefix
    | @value value lexer after stands =>
        -- All tokens up to the fault fit, but then there is no end.
        obtain ⟨unread, split, _⟩ := stands.unread
        have member : lexer.current ∈ tokens := by
          rw [split, Lexer.tokens]
          simp
        obtain ⟨covered, covers⟩ := Rule.readAt_covers read
        have ordinal := stands.ordinal yields
        simp only [Parser.bind,
          Parser.ofRule_expect_end_of_unended (yields.unended _ member), ordinal]
        exact .misfit stands.source_eq covers.le stands.ordinal_lt
          stands.significantTokens_prefix

theorem ends (reads : Reads extentBetween limit rule phrase profile)
    (yields : source.Yields tokens ending) :
    Ends source tokens ending
      (Parser.ofRule (Grammar.alone rule) limit (.start source)) := by
  cases ending with
  | none =>
      obtain ⟨inner, consists⟩ := yields.consists
      exact reads.ends_of_consists consists
  | some error => exact reads.ends_of_fault yields

end Reads

theorem ends_document (yields : source.Yields tokens ending) (limit : Nat) :
    Ends source tokens ending (Parser.ofRule Grammar.document limit (.start source)) := by
  have reads : Reads extentBetween limit Grammar.definitions _ _ := .definitions
  have ends := reads.ends yields
  rw [Parser.ofRule_document, Parser.located, Parser.bind, Parser.bind]
  generalize Parser.ofRule _ limit _ = result at ends
  cases ends with
  | value source_eq ended seen => exact .value source_eq ended seen
  | fault source_eq ended => exact .fault source_eq ended
  | misfit source_eq positive lt seen => exact .misfit source_eq positive lt seen

/-! ## Parsing and reading the tokens at once -/

/-- What comes of a parse, and the lexer that it leaves, agree with what comes of reading
all the tokens of the source at once. -/
structure Source.Agrees (source : Source)
    (outcome : Except Diagnostic (Document ParseOptions.Note))
    (lexer : Lexer) : Prop where
  isPrefix : lexer.tokens <+: source.scanned
  ahead_le : (significant lexer.after).length ≤ 1
  blames : ∀ diagnostic, outcome = .error diagnostic → diagnostic.kind ≠ .lexical →
    ∃ token ∈ lexer.significantTokens, diagnostic.offsets = [token.start.offset]
  /-- What is parsed has been read to its end. -/
  tokens_eq : ∀ document, outcome = .ok document → tokenize source = .ok lexer.tokens
  notLexical : ∀ tokens, tokenize source = .ok tokens →
    ∀ diagnostic, outcome = .error diagnostic → diagnostic.kind ≠ .lexical
  /-- A fault is reported, or a token in front of it. -/
  fails : ∀ error, tokenize source = .error error →
    ∃ diagnostic, outcome = .error diagnostic ∧
    (diagnostic = .ofLexicalError source error ∨
      diagnostic.kind ≠ .lexical ∧ ∃ offset < error.offset, diagnostic.offsets = [offset])

theorem GrammarFault.kind_ne_lexical (fault : GrammarFault) : fault.kind ≠ .lexical := by
  cases fault <;> exact nofun

theorem Source.Yields.tokens_eq_of_significant {lexer : Lexer}
    (yields : source.Yields tokens none)
    (isPrefix : lexer.tokens <+: tokens)
    (seen : lexer.significantTokens = significant tokens) :
    lexer.tokens = tokens := by
  obtain ⟨rest, last, rfl, atEnd, others⟩ := yields.last
  have isEnd : last.isEndOfFile = true := by rw [Token.isEndOfFile, atEnd]; rfl
  have member : last ∈ lexer.significantTokens := by
    rw [seen, significant, List.mem_filter, Token.isSignificant, atEnd]
    exact ⟨by simp, rfl⟩
  rcases List.prefix_concat_iff.mp isPrefix with whole | shorter
  · exact whole
  · rw [others last (shorter.subset (List.mem_filter.mp member).1)] at isEnd
    cases isEnd

theorem Source.Yields.start_lt_fault (yields : source.Yields tokens (some error))
    {index : Nat} {token : Token}
    (found : (significant tokens)[index]? = some token) (positive : 0 < index) :
    token.start.offset < error.offset := by
  obtain ⟨rest, rfl, yields⟩ := yields
  obtain ⟨index, rfl⟩ := Nat.exists_eq_add_of_lt positive
  rw [significant_cons rfl, Nat.zero_add, List.getElem?_cons_succ] at found
  exact yields.start_lt_fault.2 token (List.mem_filter.mp (List.mem_of_getElem? found)).1

/-- What is reported is the fault, or a token that has been read and stands
in front of it. -/
theorem Ends.reported {failure : Failure} {lexer : Lexer}
    (ends : Ends source tokens ending ((.error failure : Except Failure α), lexer))
    (yields : source.Yields tokens ending) (options : ParseOptions)
    {diagnostic : Diagnostic}
    (reports : failure.diagnostic lexer.source options lexer.significantTokens.toArray =
      diagnostic) :
    (∃ error, ending = some error ∧ diagnostic = .ofLexicalError source error) ∨
      diagnostic.kind ≠ .lexical ∧ ∃ token ∈ lexer.significantTokens,
        diagnostic.offsets = [token.start.offset] ∧
          ∀ error, ending = some error → token.start.offset < error.offset := by
  cases ends with
  | @fault error _ source_eq ended =>
      subst source_eq
      exact .inl ⟨error, ended, reports.symm⟩
  | @misfit fault blamed _ _ positive lt seen =>
      have found := List.getElem?_eq_getElem lt
      generalize lexer.significantTokens[blamed] = token at found
      rw [Failure.diagnostic, List.getElem?_toArray, found, Option.getD_some] at reports
      subst reports
      refine .inr ⟨?_, token, List.mem_of_getElem? found, fault.offsets_diagnostic .., ?_⟩
      · rw [(fault.kind_diagnostic ..).1]
        exact fault.kind_ne_lexical
      · rintro error rfl
        obtain ⟨rest, whole⟩ := seen
        have found' : (significant tokens)[blamed]? = some token := by
          rw [← whole, List.getElem?_append_left lt, found]
        exact yields.start_lt_fault found' positive

/-- However it ends, a parse agrees with reading all the tokens of the source at once. -/
theorem parse_agrees (source : Source) (options : ParseOptions) :
    source.Agrees (parse source options) (readDocument options (.start source)).2 := by
  obtain ⟨tokens, ending, yields⟩ := source.exists_yields
  obtain ⟨ahead, moves, _⟩ := Lexer.moves_start yields
  have kept :=
    Parser.Keeps.ofRule
      (Lexer.lasts_moves yields) Grammar.document options.maxNestingDepth _
        ⟨ahead, moves⟩
  have one := Parser.Keeps.ofRule Lexer.lasts_readsOneAhead Grammar.document
    options.maxNestingDepth
    (.start source) (Nat.zero_le 1)
  have ends := ends_document yields options.maxNestingDepth
  unfold parse readDocument readBy
  generalize Parser.ofRule Grammar.document _ _ = result at kept one ends
  obtain ⟨ahead, moves⟩ := kept
  have isPrefix := (moves.sound yields).isPrefix
  have scanned := yields.scanned_eq
  have tokenized := yields.tokenize_eq
  obtain ⟨failure | document, lexer⟩ := result
  · change source.Agrees
      (.error (failure.diagnostic lexer.source options lexer.significantTokens.toArray))
        lexer
    generalize reports : failure.diagnostic _ _ _ = diagnostic
    have reported := ends.reported yields options reports
    refine ⟨isPrefix, one, ?_, nofun, ?_, fun error failed => ⟨diagnostic, rfl, ?_⟩⟩
    · rintro _ ⟨⟩ other
      rcases reported with ⟨error, _, rfl⟩ | ⟨_, token, seen, offsets, _⟩
      · exact (other rfl).elim
      · exact ⟨token, seen, offsets⟩
    · rintro _ read _ ⟨⟩
      rcases reported with ⟨error, rfl, _⟩ | ⟨kind, _⟩
      · rw [tokenized] at read
        cases read
      · exact kind
    · rw [tokenized] at failed
      cases ending with
      | none => cases failed
      | some error' =>
          cases failed
          rcases reported with ⟨_, ⟨⟩, equal⟩ | ⟨kind, token, _, offsets, before⟩
          · exact .inl equal
          · exact .inr ⟨kind, _, before _ rfl, offsets⟩
  · cases ends with
    | value source_eq ended seen =>
        subst ended
        have whole := yields.tokens_eq_of_significant (scanned ▸ isPrefix) seen
        refine ⟨isPrefix, one, nofun, fun _ _ => ?_, nofun, fun error failed => ?_⟩
        · rw [tokenized, whole]
          rfl
        · rw [tokenized] at failed
          cases failed

end GraphQL
