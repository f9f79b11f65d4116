import GraphQL.Proofs.Lexing.Writing
import GraphQL.Proofs.Parsing.Layout

/-! The token that is blamed.

Where a token does not fit, those in front of it are the front of a document, and those up
to it are not. -/

namespace GraphQL

variable {source : Source} {tokens : List Token} {inner : List Lexeme}
variable {options : ParseOptions}

/-- Some source begins with the tokens, and can be parsed if enough levels are allowed. -/
def Viable (front : List Lexeme) : Prop :=
  ∃ source tokens, tokenize source = .ok tokens ∧ front <+: lexemes tokens ∧
    ∃ options document, parse source options = .ok document

/-! ## Reading the definitions of a source -/

namespace Source.Consists

theorem parses_iff (consists : source.Consists tokens inner) :
    (∃ document, parse source options = .ok document) ↔
      ∃ definitions, definitions ≠ [] ∧
      (Phrase.node extentBetween .variable Node.definition).star.Holds
        options.maxNestingDepth 1 inner [.endOfFile] definitions := by
  constructor
  · rintro ⟨document, parsed⟩
    obtain ⟨definitions, holds, _⟩ :=
      (parse_definitions_iff consists).mp ⟨document, parsed, rfl⟩
    exact ⟨definitions, holds⟩
  · rintro ⟨definitions, holds⟩
    obtain ⟨document, parsed, _⟩ :=
      (parse_definitions_iff consists).mpr ⟨definitions, holds, rfl⟩
    exact ⟨document, parsed⟩

theorem parse_eq_error (consists : source.Consists tokens inner) {diagnostic : Diagnostic}
    (failed : parse source options = .error diagnostic) :
    ∃ fault blamed token,
      Grammar.definitions.readWhole options.maxNestingDepth (source.size + 2)
        (inner ++ [.endOfFile]) = .error (some (.grammatical fault blamed)) ∧
      (significant tokens)[blamed]? = some token ∧
      diagnostic = fault.diagnostic source options token := by
  have reads : Reads extentBetween options.maxNestingDepth Grammar.definitions _ _ :=
    .definitions
  have comes :=
    comes_document consists.yields consists.lexemes_eq (by simp) options.maxNestingDepth
  have grammatical :
      ∀ failure, Grammar.definitions.readWhole options.maxNestingDepth (source.size + 2)
      (inner ++ [.endOfFile]) = .error failure →
        ∃ fault blamed, failure = some (.grammatical fault blamed) :=
    fun failure => reads.readWhole_grammatical consists.inside
  generalize Grammar.definitions.readWhole _ _ _ = outcome at comes grammatical
  cases outcome with
  | ok definitions =>
      have parsed : parse source options = .ok _ := readBy_of_ok comes
      rw [parsed] at failed
      cases failed
  | error failure =>
      obtain ⟨fault, blamed, rfl⟩ := grammatical failure rfl
      have found := List.getElem?_eq_getElem comes.blamed_lt
      have failed' : parse source options = .error _ := readBy_of_error comes
      rw [failed', Failure.diagnostic, List.getElem?_toArray, found] at failed
      exact ⟨fault, blamed, _, rfl, found, (Except.error.inj failed).symm⟩

end Source.Consists

/-! ## Documents that go on otherwise -/

/-- Some source begins with the same tokens and goes on with the text. -/
theorem Source.Consists.exists_front (consists : source.Consists tokens inner)
    {covered rest : List Lexeme}
    (split : inner ++ [.endOfFile] = covered ++ rest) (further : rest ≠ [])
    {text : List Char} (breaks : Breaks text) :
    ∃ source' tokens' cursor, (Cursor.start source').Takes tokens' cursor ∧
      cursor.rest = text ∧
      lexemes tokens' = covered := by
  by_cases empty : covered = []
  · exact ⟨{ body := String.ofList text }, [], _, .nil, String.toList_ofList, empty ▸ rfl⟩
  · have said :
        (significant tokens).map Token.lexeme = .startOfFile :: (covered ++ rest) := by
      rw [← split]
      exact consists.lexemes_eq
    obtain ⟨start, seen, whole, _, said⟩ := List.map_eq_cons_iff.mp said
    obtain ⟨part, back, rfl, rfl, rfl⟩ := List.map_eq_append_iff.mp said
    have nonempty : part ≠ [] := fun nothing => empty (by rw [nothing]; rfl)
    obtain ⟨before, covered, after, _, again⟩ :=
      consists.yields.cut (whole.trans (List.singleton_append ..).symm)
        (by simp) (fun nothing => further (by rw [nothing]; rfl))
          (List.head?_eq_some_head nonempty)
        (List.getLast?_eq_some_getLast nonempty)
    obtain ⟨tokens', cursor, takes, rest_eq, same⟩ :=
      again { body := String.ofList (covered ++ text) } text String.toList_ofList breaks
    exact ⟨_, tokens', cursor, takes, rest_eq, lexemes_eq_of_matches same⟩

theorem viable_of_holds (consists : source.Consists tokens inner)
    {covered rest completion : List Lexeme}
    (split : inner ++ [.endOfFile] = covered ++ rest) (further : rest ≠ [])
    (plain : ∀ lexeme ∈ completion, lexeme.isPlain = true) {depth : Nat}
    {definitions : List (Definition Extent)}
    (holds : definitions ≠ [] ∧
      (Phrase.node extentBetween .variable Node.definition).star.Holds depth 1
      (covered ++ completion) [.endOfFile] definitions) :
    Viable (.startOfFile :: covered) := by
  obtain ⟨source', tokens', cursor, takes, written, rfl⟩ :=
    consists.exists_front split further (breaks_write completion)
  obtain ⟨tokens'', after, takes', nothing, rfl⟩ := Cursor.takes_write plain written
  obtain ⟨last, yields, _, lexemes_eq⟩ :=
    Source.exists_yields_of_takes (takes.append takes') nothing
  rw [lexemes_append] at lexemes_eq
  let options : ParseOptions := ⟨false, depth⟩
  refine ⟨source', _, tokenize_eq_ok.mpr yields, ?_, options, ?_⟩
  · rw [lexemes_eq]
    exact ⟨lexemes tokens'' ++ [.endOfFile], by simp⟩
  · have consists' : source'.Consists _ (lexemes tokens' ++ lexemes tokens'') :=
      ⟨yields, lexemes_eq⟩
    exact consists'.parses_iff.mpr ⟨definitions, holds⟩

/-! ## The first token that does not fit -/

/-- Tokens up to one that is blamed are the front of no document. -/
theorem not_viable_of_blames (consists : source.Consists tokens inner)
    {fault : GrammarFault} {blamed : Nat}
    (failed : Grammar.definitions.readWhole options.maxNestingDepth (source.size + 2)
      (inner ++ [.endOfFile]) = .error (some (.grammatical fault blamed)))
    (misfit : fault.IsMisfit) (lt : blamed < (significant tokens).length) :
    ¬ Viable ((lexemes tokens).take (blamed + 1)) := by
  rintro ⟨source', tokens', tokenized, front, options', parses⟩
  obtain ⟨inner', consists'⟩ := (tokenize_eq_ok.mp tokenized).consists
  obtain ⟨definitions, holds⟩ := consists'.parses_iff.mp parses
  have reads : Reads extentBetween options.maxNestingDepth Grammar.definitions _ _ :=
    .definitions
  have reads' : Reads extentBetween options'.maxNestingDepth Grammar.definitions _ _ :=
    .definitions
  have read := (reads'.readWhole_eq_ok (by decide) consists'.inside).mpr holds
  have shares : (inner' ++ [Lexeme.endOfFile]).take blamed =
      (inner ++ [Lexeme.endOfFile]).take blamed := by
    rw [consists.lexemes_eq, consists'.lexemes_eq, List.take_succ_cons,
      List.cons_prefix_cons, List.prefix_iff_eq_take, List.length_take_of_le] at front
    · exact front.2.symm
    · rw [consists.length_eq] at lt
      rw [List.length_append, List.length_singleton]
      omega
  have le := reads.readWhole_blames consists.inside consists'.inside shares
    failed read misfit
  omega

/-- Parsing that fails with an unexpected token blames the first of the tokens that does
not fit: those before it are the front of a document, and with it they are not. -/
theorem parse_blames (tokenized : tokenize source = .ok tokens) {diagnostic : Diagnostic}
    (failed : parse source options = .error diagnostic) {expected : Option String}
    {found : String} (unexpected : diagnostic.kind = .unexpectedToken expected found) :
    ∃ before token behind, significant tokens = before ++ token :: behind ∧
      diagnostic.offsets = [token.start.offset] ∧ Viable (before.map Token.lexeme) ∧
        ¬ Viable ((before ++ [token]).map Token.lexeme) := by
  obtain ⟨inner, consists⟩ := (tokenize_eq_ok.mp tokenized).consists
  obtain ⟨fault, blamed, token, read, isBlamed, rfl⟩ := consists.parse_eq_error failed
  rw [(fault.kind_diagnostic ..).1] at unexpected
  have misfit : fault.IsMisfit := by
    rintro limit rfl
    cases unexpected
  obtain ⟨lt, rfl⟩ := List.getElem?_eq_some_iff.mp isBlamed
  have not_viable := not_viable_of_blames consists read misfit lt
  have reads : Reads extentBetween options.maxNestingDepth Grammar.definitions _ _ :=
    .definitions
  obtain ⟨_, _, equal, fails⟩ :=
    reads.readWhole_fails (by decide) (by decide) consists.inside read
  cases equal
  obtain ⟨covered, rest, completion, split, further, rfl, plain, completed⟩ :=
    fails misfit
  obtain ⟨definitions, holds⟩ := completed _ (Nat.lt_succ_self _)
  have viable := viable_of_holds consists split further plain holds
  have whole : significant tokens = (significant tokens).take (1 + covered.length) ++
      (significant tokens)[1 + covered.length] :: (significant tokens).drop
        (1 + covered.length + 1) := by
    rw [List.getElem_cons_drop, List.take_append_drop]
  refine ⟨_, _, _, whole, fault.offsets_diagnostic .., ?_, ?_⟩
  · have front :
        (lexemes tokens).take (1 + covered.length) = .startOfFile :: covered := by
      rw [consists.lexemes_eq, split, Nat.add_comm, List.take_succ_cons, List.take_left]
    rwa [List.map_take, ← lexemes, front]
  · rwa [List.take_append_getElem, List.map_take, ← lexemes]

theorem braces_blames :
    ∃ diagnostic, parse { body := "\x7b\x7d" } ⟨false, 3⟩ = .error diagnostic ∧
      diagnostic.offsets = [1] ∧
      Viable [.startOfFile, .punctuator .leftBrace] ∧
        ¬ Viable [.startOfFile, .punctuator .leftBrace, .punctuator .rightBrace] := by
  have tokenized : tokenize { body := "\x7b\x7d" } = .ok _ := rfl
  have failed : parse { body := "\x7b\x7d" } ⟨false, 3⟩ = .error _ := rfl
  obtain ⟨before, token, behind, whole, offsets, viable, notViable⟩ :=
    parse_blames tokenized failed rfl
  refine ⟨_, failed, rfl, ?_⟩
  -- No other token begins at the second byte.
  rcases before with _ | ⟨_, _ | ⟨_, _ | ⟨_, _ | ⟨_, before⟩⟩⟩⟩
  · cases whole
    cases offsets
  · cases whole
    cases offsets
  · cases whole
    exact ⟨viable, notViable⟩
  · cases whole
    cases offsets
  · have length : 4 = _ := congrArg List.length whole
    simp only [List.length_append, List.length_cons] at length
    omega

end GraphQL
