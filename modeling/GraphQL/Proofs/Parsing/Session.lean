import GraphQL.Proofs.Parsing.Counting
import GraphQL.Proofs.Parsing.Faults

/-! A parser that is asked for documents again and again.

The first call takes the parser away from the beginning of its source, or comes to a fault
there. Either way all later calls fail alike, and change nothing. -/

namespace GraphQL

/-! ## Away from the beginning -/

namespace Lexer

/-- The lexer has left the beginning of its source, and will not come back to it. -/
def IsUnderway (lexer : Lexer) : Prop :=
  ∃ source tokens ending ahead, Source.Yields source tokens ending ∧
    lexer.Moves source tokens ending ahead ∧
    ∀ token ∈ lexer.current :: ahead, token.lexeme ≠ .startOfFile

theorem lasts_isUnderway : Lasts IsUnderway where
  lookahead lexer := by
    rintro ⟨source, tokens, ending, ahead, yields, moves, others⟩
    obtain ⟨moves', current, _⟩ := moves.lookahead yields
    exact ⟨source, tokens, ending, ahead, yields, moves', by rwa [current]⟩
  advance lexer := by
    rintro ⟨source, tokens, ending, ahead, yields, moves, others⟩
    obtain ⟨here, further⟩ := List.forall_mem_cons.mp others
    have advances := moves.advance yields
    generalize lexer.advance = result at advances
    cases advances with
    | atEnd _ current moves' | fault current moves' =>
        exact ⟨source, tokens, ending, [], yields, moves', by simpa [current] using here⟩
    | moved current moves' =>
        exact ⟨source, tokens, ending, _, yields, moves', by rwa [current]⟩

theorem isUnderway_of_advance {source : Source} {token : Token} {lexer : Lexer}
    (moved : (start source).advance = (.ok token, lexer)) : lexer.IsUnderway := by
  obtain ⟨tokens, ending, yields⟩ := source.exists_yields
  obtain ⟨ahead, moves, seen⟩ := moves_start yields
  have others : ∀ token ∈ ahead, token.lexeme ≠ .startOfFile := by
    obtain ⟨rest, rfl, yields⟩ := yields
    obtain rfl : significant rest = ahead := List.tail_eq_of_cons_eq seen
    exact fun token member => yields.notStart token (List.mem_filter.mp member).1
  have advances := moves.advance yields
  rw [moved] at advances
  cases advances with
  | atEnd isEnd => cases isEnd
  | moved current moves' =>
      exact ⟨source, tokens, ending, _, yields, moves', by rwa [current]⟩

end Lexer

/-! ## The second call -/

namespace Parser

variable {limit : Nat} {lexer after : Lexer} {failure : Failure}

theorem ofRule_document_of_error
    (opened : ofRule (Rule.expect .startOfFile) limit lexer = (.error failure, after)) :
    ofRule Grammar.document limit lexer = (.error failure, after) := by
  change located (bind (ofRule (Rule.expect .startOfFile) limit) _) lexer = _
  simp only [located, bind, opened]

theorem exists_ofRule_document (limit : Nat) :
    ∃ rest : Rule (Extent → Document Extent), ∀ lexer middle,
    ofRule (Rule.expect .startOfFile) limit lexer = (.ok (), middle) →
      (ofRule Grammar.document limit lexer).2 = (ofRule rest limit middle).2 := by
  obtain ⟨rest, split⟩ : ∃ rest, Grammar.document =
      Rule.located (.bind (Rule.expect .startOfFile) fun _ => rest) := ⟨_, rfl⟩
  refine ⟨rest, fun lexer middle opened => ?_⟩
  rw [split]
  change (located (bind (ofRule (Rule.expect .startOfFile) limit) fun _ =>
    ofRule rest limit) lexer).2 = _
  simp only [located, bind, opened]
  rcases ofRule rest limit middle with ⟨failure | build, after⟩ <;> rfl

/-- Away from the beginning, a document is refused, and nothing is taken. -/
theorem ofRule_document_of_isUnderway (underway : lexer.IsUnderway) (limit : Nat) :
    ∃ failure, ofRule Grammar.document limit lexer = (.error failure, lexer) := by
  obtain ⟨_, _, _, _, _, _, others⟩ := underway
  have other : lexer.current.lexeme.kind ≠ .startOfFile := by
    have notStart := others _ List.mem_cons_self
    cases lexeme : lexer.current.lexeme <;> simp_all [Lexeme.kind]
  exact ⟨_, ofRule_document_of_error (ofRule_expect_of_ne other limit)⟩

theorem exists_ofRule_document_again (source : Source) (limit : Nat) : ∃ failure,
    ofRule Grammar.document limit (ofRule Grammar.document limit (.start source)).2 =
      (.error failure, (ofRule Grammar.document limit (.start source)).2) := by
  have atStart : (Lexer.start source).current.lexeme.kind = .startOfFile := rfl
  have opened := ofRule_expect_of_eq atStart limit
  rcases moved : (Lexer.start source).advance with ⟨error | token, middle⟩
  · -- The lexer has not left the beginning, and comes to the same fault again.
    rw [moved] at opened
    rw [ofRule_document_of_error opened]
    obtain ⟨tokens, ending, yields⟩ := source.exists_yields
    obtain ⟨ahead, moves, _⟩ := Lexer.moves_start yields
    have failed : (Lexer.start source).call .advance = (.error error, middle) := moved
    have fails := moves.fails yields failed
    have stillAtStart : middle.current.lexeme.kind = .startOfFile := by
      rw [fails.current_eq]; exact atStart
    have again := ofRule_expect_of_eq stillAtStart limit
    rw [show middle.advance = (.error error, middle) from fails.again .advance] at again
    exact ⟨_, ofRule_document_of_error again⟩
  · rw [moved] at opened
    obtain ⟨rest, behind⟩ := exists_ofRule_document limit
    rw [behind _ _ opened]
    have underway : (ofRule rest limit middle).2.IsUnderway :=
      Keeps.ofRule Lexer.lasts_isUnderway rest limit middle
        (Lexer.isUnderway_of_advance moved)
    exact ofRule_document_of_isUnderway underway limit

end Parser

theorem exists_readDocument_again (source : Source)
    (options : ParseOptions) : ∃ diagnostic,
    readDocument options (readDocument options (.start source)).2 =
      (.error diagnostic, (readDocument options (.start source)).2) := by
  obtain ⟨failure, again⟩ :=
    Parser.exists_ofRule_document_again source options.maxNestingDepth
  unfold readDocument readBy
  exact ⟨_, by rw [again]⟩

/-! ## Call after call -/

/-- A parser that has been made for a source -/
structure Session where
  options : ParseOptions
  descent : Descent

namespace Session

def resting (options : ParseOptions) (lexer : Lexer) : Session := ⟨options, lexer, 0⟩

def start (source : Source) (options : ParseOptions) : Session :=
  resting options (.start source)

def readDocument (session : Session) :
    Except Diagnostic (Document ParseOptions.Note) × Session :=
  let (outcome, descent) :=
    Counter.ofRule Grammar.document session.options.maxNestingDepth session.descent
  let tokens := descent.lexer.significantTokens.toArray
  (match outcome with
    | .ok document => .ok (document.map (session.options.note tokens))
    | .error failure =>
        .error (failure.diagnostic descent.lexer.source session.options tokens),
    { session with descent })

def after (session : Session) : (calls : Nat) → Session
  | 0 => session
  | calls + 1 => (session.after calls).readDocument.2

/-- What a parser answers when it has been asked so many times before. -/
def answer (session : Session) (calls : Nat) :
    Except Diagnostic (Document ParseOptions.Note) :=
  (session.after calls).readDocument.1

/-- Every call but the first fails, always alike, and changes nothing. No call
leaves a level behind. -/
structure Settles (session : Session) (diagnostic : Diagnostic) : Prop where
  refused : ∀ calls, 0 < calls → session.answer calls = .error diagnostic
  unmoved : ∀ calls, 0 < calls → session.after (calls + 1) = session.after calls
  depth : ∀ calls, (session.after calls).descent.depth = 0

theorem readDocument_resting (options : ParseOptions) (lexer : Lexer) :
    (resting options lexer).readDocument =
      ((GraphQL.readDocument options lexer).1,
        resting options (GraphQL.readDocument options lexer).2) := by
  have same := Counter.Mirrors.ofRule Grammar.document options.maxNestingDepth lexer
  simp only [readDocument, resting, same, GraphQL.readDocument, readBy]
  rcases Parser.ofRule Grammar.document options.maxNestingDepth
    lexer with ⟨failure | document, after⟩ <;> rfl

theorem after_succ (source : Source) (options : ParseOptions) (calls : Nat) :
    (start source options).after (calls + 1) =
      resting options (GraphQL.readDocument options (.start source)).2 := by
  induction calls with
  | zero => rw [after, after, start, readDocument_resting]
  | succ calls induction =>
      obtain ⟨diagnostic, again⟩ := exists_readDocument_again source options
      rw [after, induction, readDocument_resting, again]

/-- The first call parses the source, and none after it does. -/
theorem settles_start (source : Source) (options : ParseOptions) :
    (start source options).answer 0 = parse source options ∧
      ∃ diagnostic, (start source options).Settles diagnostic := by
  refine ⟨by rw [answer, after, start, readDocument_resting, parse], ?_⟩
  obtain ⟨diagnostic, again⟩ := exists_readDocument_again source options
  refine ⟨diagnostic, fun calls positive => ?refused, fun calls positive => ?unmoved,
    fun calls => ?depth⟩
  case refused =>
    obtain ⟨calls, rfl⟩ := Nat.exists_eq_add_of_le' positive
    rw [answer, after_succ, readDocument_resting, again]
  case unmoved =>
    obtain ⟨calls, rfl⟩ := Nat.exists_eq_add_of_le' positive
    rw [after_succ, after_succ]
  case depth =>
    cases calls with
    | zero => rfl
    | succ calls => rw [after_succ, resting]

end Session

end GraphQL
