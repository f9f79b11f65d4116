import GraphQL.Proofs.Reading.Parse

/-! Layout means nothing.

What comes of parsing depends on what the tokens say that the grammar sees, and on
nothing else that stands in a source: blanks, comments, and how literals are spelled. -/

namespace GraphQL

variable {α : Type}

theorem Lexeme.eq_of_kind_of_value {lexeme other : Lexeme}
    (kind : lexeme.kind = other.kind)
    (value : lexeme.value = other.value) : lexeme = other := by
  cases lexeme <;> cases other <;> simp_all [Lexeme.kind, Lexeme.value]

theorem Rule.readWhole_bound {rule : Rule α} (mayTake : rule.MayTake) (limit : Nat)
    {bound bound' : Nat} {inner : List Lexeme} (inside : Inner bound inner)
    (inside' : Inner bound' inner) :
    rule.readWhole limit bound' (inner ++ [.endOfFile]) =
      rule.readWhole limit bound (inner ++ [.endOfFile]) := by
  have closed : (⟨1, inner ++ [.endOfFile]⟩ : Place).Closed
      (Terms.whole extentBetween limit bound).bound :=
    inside.closed
  have same : rule.readAt (.whole extentBetween limit bound') limit
      ⟨1, inner ++ [.endOfFile]⟩ =
      rule.readAt (.whole extentBetween limit bound) limit ⟨1, inner ++ [.endOfFile]⟩ :=
    readAt_withBound mayTake closed inside'.closed
  unfold readWhole
  rw [same]

/-- The outcomes of two parses with the given tokens are the same, except that a fault
lies with the tokens of the same number in either. -/
inductive SameOutcome (tokens tokens' : List Token) :
    Except Diagnostic α → Except Diagnostic α → Prop
  | result (value : α) : SameOutcome tokens tokens' (.ok value) (.ok value)
  | failure {diagnostic diagnostic' : Diagnostic} {ordinal : Nat} {token token' : Token} :
      diagnostic'.kind = diagnostic.kind → diagnostic'.message = diagnostic.message →
      tokens[ordinal]? = some token → tokens'[ordinal]? = some token' →
      diagnostic.offsets = [token.start.offset] →
      diagnostic'.offsets = [token'.start.offset] →
      SameOutcome tokens tokens' (.error diagnostic) (.error diagnostic')

section

variable {source source' : Source} {tokens tokens' : List Token} {inner : List Lexeme}
variable {options : ParseOptions}

theorem GrammarFault.offsets_diagnostic (fault : GrammarFault) (source : Source)
    (token : Token) :
    (fault.diagnostic source options token).offsets = [token.start.offset] := by
  cases fault with
  | unknownDirectiveLocation name =>
      cases erased : options.noLocation <;>
        simp [GrammarFault.diagnostic, erased, Diagnostic.offsets,
          Diagnostic.atPosition, Token.span]
  | _ => rfl

theorem GrammarFault.kind_diagnostic (fault : GrammarFault) (source : Source)
    (token : Token) :
    (fault.diagnostic source options token).kind = fault.kind ∧
      (fault.diagnostic source options token).message = fault.message := by
  cases fault with
  | unknownDirectiveLocation name =>
      cases erased : options.noLocation <;>
        simp [GrammarFault.diagnostic, erased, Diagnostic.atPosition]
  | _ => exact ⟨rfl, rfl⟩

variable {Tree : Type → Type} {rule : Rule (Tree Extent)}
variable {map : (Extent → ParseOptions.Note) → Tree Extent → Tree ParseOptions.Note}

theorem Comes.blamed_lt {fault : GrammarFault} {blamed : Nat}
    {result : Except Failure α × Lexer}
    (comes : Comes source tokens (.error (some (.grammatical fault blamed))) result) :
    blamed < (significant tokens).length := by
  cases comes with
  | failure source_eq within seen => exact Nat.lt_of_lt_of_le within seen.length_le

/-- Sources whose tokens are read alike are parsed alike. -/
theorem sameOutcome_of_comes (erased : options.noLocation = true)
    {outcome : Except (Option Failure) (Tree Extent)}
    (comes : Comes source tokens outcome
      (Parser.ofRule rule options.maxNestingDepth (.start source)))
    (comes' : Comes source' tokens' outcome
      (Parser.ofRule rule options.maxNestingDepth (.start source')))
    (grammatical : ∀ failure, outcome = .error failure →
      ∃ fault blamed, failure = some (.grammatical fault blamed)) :
    SameOutcome (significant tokens) (significant tokens')
      (readBy rule map options (.start source)).1
        (readBy rule map options (.start source')).1 := by
  cases outcome with
  | ok tree =>
      have erase : ∀ tokens, options.note tokens = fun _ => none := by
        intro tokens
        funext extent
        simp [ParseOptions.note, erased]
      rw [readBy_of_ok comes, readBy_of_ok comes', erase, erase]
      exact .result _
  | error failure =>
      obtain ⟨fault, blamed, rfl⟩ := grammatical failure rfl
      have token := List.getElem?_eq_getElem comes.blamed_lt
      have token' := List.getElem?_eq_getElem comes'.blamed_lt
      rw [readBy_of_error comes, readBy_of_error comes']
      simp only [Failure.diagnostic, List.getElem?_toArray, token, token',
        Option.getD_some]
      refine .failure ?_ ?_ token token' (fault.offsets_diagnostic ..)
        (fault.offsets_diagnostic ..)
      · rw [(fault.kind_diagnostic ..).1, (fault.kind_diagnostic ..).1]
      · rw [(fault.kind_diagnostic ..).2, (fault.kind_diagnostic ..).2]

theorem sameOutcome_alone (erased : options.noLocation = true)
    (consists : source.Consists tokens inner) (consists' : source'.Consists tokens' inner)
    {phrase : Phrase (Tree Extent)} {profile : Profile}
    (reads : Reads extentBetween options.maxNestingDepth rule phrase profile)
    (mayTake : rule.MayTake) :
    SameOutcome (significant tokens) (significant tokens')
      (readBy (Grammar.alone rule) map options (.start source)).1
      (readBy (Grammar.alone rule) map options (.start source')).1 := by
  have comes :=
    comes_alone consists.yields consists.lexemes_eq (by simp) rule options.maxNestingDepth
  have comes' :=
    comes_alone consists'.yields consists'.lexemes_eq
      (by simp) rule options.maxNestingDepth
  rw [Rule.readWhole_bound mayTake _ consists.inside consists'.inside] at comes'
  exact sameOutcome_of_comes erased comes comes' fun _ =>
    reads.readWhole_grammatical consists.inside

theorem Rule.MayTake.definitions : Grammar.definitions.MayTake :=
  .bind (Takes.mayTake (.definition _)) fun _ =>
    .bind (.repeatWhile _ (.item (.definition _))) fun _ => .pure _

theorem sameOutcome_document (erased : options.noLocation = true)
    (consists : source.Consists tokens inner)
    (consists' : source'.Consists tokens' inner) :
    SameOutcome (significant tokens) (significant tokens') (parse source options)
      (parse source' options) := by
  have reads : Reads extentBetween options.maxNestingDepth Grammar.definitions _ _ :=
    .definitions
  have length : (significant tokens').length = (significant tokens).length := by
    rw [consists.length_eq, consists'.length_eq]
  have comes :=
    comes_document consists.yields consists.lexemes_eq (by simp) options.maxNestingDepth
  have comes' :=
    comes_document consists'.yields consists'.lexemes_eq (by simp) options.maxNestingDepth
  rw [Rule.readWhole_bound Rule.MayTake.definitions _ consists.inside consists'.inside,
    length] at comes'
  refine sameOutcome_of_comes erased comes comes' fun failure failed => ?_
  refine reads.readWhole_grammatical consists.inside ?_
  generalize Grammar.definitions.readWhole _ _ _ = outcome at failed
  cases outcome <;> cases failed
  rfl

theorem lexemes_eq_of_agree
    (agree : (significant tokens').map (fun token => (token.kind, token.value)) =
      (significant tokens).map fun token => (token.kind, token.value)) :
    lexemes tokens' = lexemes tokens := by
  have each : ∀ tokens : List Token, (tokens.map fun token => (token.kind, token.value)) =
      (tokens.map Token.lexeme).map fun lexeme => (lexeme.kind, lexeme.value) := by
    intro tokens
    rw [List.map_map]
    rfl
  rw [each, each] at agree
  refine (List.map_inj_right fun lexeme other equal => ?_).mp agree
  rw [Prod.mk.injEq] at equal
  exact Lexeme.eq_of_kind_of_value equal.1 equal.2

/-- Without locations, two sources with the same tokens but for their layout and their
comments are parsed to the same result, or fail in the same way at the same token. -/
theorem parse_sameOutcome (tokenized : tokenize source = .ok tokens)
    (tokenized' : tokenize source' = .ok tokens')
    (agree : (significant tokens').map (fun token => (token.kind, token.value)) =
      (significant tokens).map fun token => (token.kind, token.value))
    (erased : options.noLocation = true) :
    SameOutcome (significant tokens) (significant tokens') (parse source options)
        (parse source' options) ∧
      SameOutcome (significant tokens) (significant tokens') (parseValue source options)
        (parseValue source' options) ∧
      SameOutcome (significant tokens) (significant tokens') (parseType source options)
        (parseType source' options) := by
  obtain ⟨inner, consists⟩ := (tokenize_eq_ok.mp tokenized).consists
  have consists' : source'.Consists tokens' inner :=
    ⟨tokenize_eq_ok.mp tokenized', (lexemes_eq_of_agree agree).trans consists.lexemes_eq⟩
  have parts := Reads.nestedParts extentBetween options.maxNestingDepth
  refine ⟨sameOutcome_document erased consists consists', ?_, ?_⟩
  · exact sameOutcome_alone erased consists consists' (.value parts .variable)
      (Rule.Takes.mayTake (.value _))
  · exact sameOutcome_alone erased consists consists' (.typeReference parts)
      (Rule.Takes.mayTake .typeReference)

theorem list_sameOutcome :
    ∃ tokens tokens', tokenize { body := "[1,a]" } = .ok tokens ∧
      tokenize { body := "[ #first\n1 a,\n]" } = .ok tokens' ∧
        (significant tokens').map (fun token => (token.kind, token.value)) =
          (significant tokens).map (fun token => (token.kind, token.value)) ∧
        SameOutcome (significant tokens) (significant tokens')
          (parseValue { body := "[1,a]" } ⟨true, 1⟩)
          (parseValue { body := "[ #first\n1 a,\n]" } ⟨true, 1⟩) := by
  have tokenized : tokenize { body := "[1,a]" } = .ok _ := rfl
  have tokenized' : tokenize { body := "[ #first\n1 a,\n]" } = .ok _ := rfl
  refine ⟨_, _, tokenized, tokenized', by decide, ?_⟩
  exact (parse_sameOutcome tokenized tokenized' (by decide) rfl).2.1

end

end GraphQL
