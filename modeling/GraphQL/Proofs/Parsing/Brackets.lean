import GraphQL.Proofs.Parsing.Nesting
import GraphQL.Proofs.Parsing.Tightening

/-! Brackets that are open where a parser stands.

What a rule reads has closed the brackets that it has opened. Where a part is refused for
lying too deep, those brackets are still open that the parts around it began with, and the
braces around the members of a type if it lies within these. -/

namespace GraphQL

/-! ## Open brackets -/

/-- The brackets that are open behind a token, given those in front of it,
innermost first -/
def Token.unclosed (token : Token) (opened : List Token) : List Token :=
  match token.lexeme with
  | .punctuator .leftBrace | .punctuator .leftBracket => token :: opened
  | .punctuator .rightBrace | .punctuator .rightBracket => opened.tail
  | _ => opened

/-- The brackets that are open in front of a token of the source, innermost first -/
def Source.unclosedBefore (source : Source) (token : Token) : List Token :=
  ((significant source.scanned).take token.ordinal).foldl
    (fun opened token => token.unclosed opened) []

def Nonterminal.opening : Nonterminal → Punctuator
  | .selectionSet | .object _ => .leftBrace
  | .list _ | .listElement => .leftBracket

def Nonterminal.firstToken (part : Nonterminal) (there : Lexer) : Token :=
  match part with
  | .listElement => there.last
  | _ => there.current

/-- The lexer has come to a part, whose bracket is there unless it is that
of a selection set. -/
structure Nonterminal.BeginsAt (source : Source) (part : Nonterminal)
    (there : Lexer) : Prop where
  isOn : there.IsOn source
  found : (significant source.scanned)[(part.firstToken there).ordinal]? =
    some (part.firstToken there)
  follows : part = .listElement → there.current.ordinal = there.last.ordinal + 1
  opening : part ≠ .selectionSet →
    (part.firstToken there).lexeme = .punctuator part.opening

/-- Tokens of the first kind open what those of the second kind close, if
they open anything. -/
def Punctuator.ClosedBy (opening closing : Punctuator) : Prop :=
  ∀ (first last : Token) (opened : List Token), first.lexeme = .punctuator opening →
    last.lexeme = .punctuator closing → last.unclosed (first.unclosed opened) = opened

theorem Punctuator.closedBy_parens : leftParen.ClosedBy rightParen := by
  intro first last opened isFirst isLast
  rw [Token.unclosed, isLast, Token.unclosed, isFirst]

theorem Punctuator.closedBy_brackets : leftBracket.ClosedBy rightBracket := by
  intro first last opened isFirst isLast
  rw [Token.unclosed, isLast, Token.unclosed, isFirst]
  rfl

theorem Punctuator.closedBy_braces : leftBrace.ClosedBy rightBrace := by
  intro first last opened isFirst isLast
  rw [Token.unclosed, isLast, Token.unclosed, isFirst]
  rfl

theorem Token.unclosed_of_brace {token : Token} {opened : List Token}
    (isBrace : token.lexeme = .punctuator .leftBrace) :
    token.unclosed opened = token :: opened := by
  rw [unclosed, isBrace]

theorem Token.unclosed_of_bracket {token : Token} {opened : List Token}
    (isBracket : token.lexeme = .punctuator .leftBracket) :
    token.unclosed opened = token :: opened := by
  rw [unclosed, isBracket]

def Lexeme.isBracket : Lexeme → Bool
  | .punctuator .leftBrace | .punctuator .leftBracket | .punctuator .rightBrace
  | .punctuator .rightBracket => true
  | _ => false

theorem Token.unclosed_of_not_isBracket {token : Token} {opened : List Token}
    (other : token.lexeme.isBracket = false) : token.unclosed opened = opened := by
  unfold unclosed
  split
  case h_5 => rfl
  all_goals
    rename_i said
    rw [said] at other
    cases other

variable {source : Source} {limit depth : Nat} {lexer after : Lexer}

theorem Source.unclosedBefore_eq {token next : Token}
    (follows : next.ordinal = token.ordinal + 1)
    (found : (significant source.scanned)[token.ordinal]? = some token) :
    source.unclosedBefore next = token.unclosed (source.unclosedBefore token) := by
  rw [unclosedBefore, follows, List.take_add_one, found, List.foldl_append]
  rfl

/-- Moving on, a lexer passes its current token. At the end, which is no
bracket, it stays. -/
theorem Lexer.IsOn.unclosedBefore_advance (isOn : lexer.IsOn source) {token : Token}
    (answer : lexer.advance = (.ok token, after)) :
    source.unclosedBefore after.current =
      lexer.current.unclosed (source.unclosedBefore lexer.current) := by
  have found := isOn.getElem?_ordinal.1
  obtain ⟨tokens, ending, ahead, yields, moves⟩ := isOn
  have advances := moves.advance yields
  have next := (moves.ordinal yields).2
  rw [answer] at advances
  cases advances with
  | atEnd isEnd stays =>
      rw [stays, Token.unclosed]
      cases said : lexer.current.lexeme <;>
        first | rfl | simp [Token.isEndOfFile, said, Lexeme.isEndOfFile] at isEnd
  | moved current _ =>
      rw [current]
      exact Source.unclosedBefore_eq (next _ rfl).1 found

/-! ## Rules and brackets -/

/-- What comes of reading by a rule. If it ends, the first brackets are open then. If a
part is refused for lying too deep, the rule comes to it on its own level, and the
brackets that are open in front of that part are as they should be. -/
inductive Tracked {α : Type} (source : Source) (limit depth : Nat) (rule : Rule α)
    (lexer : Lexer)
    (opened : List Token) (inside : List Token → Prop) : Except Failure α × Lexer → Prop
  | value {value : α} {after : Lexer} : source.unclosedBefore after.current = opened →
      Tracked source limit depth rule lexer opened inside (.ok value, after)
  | refused {part : Nonterminal} {there after : Lexer} {failure : Failure} :
      Rule.Enters limit (.nested part) depth there depth rule lexer →
      (Rule.nested part).runAt limit depth there = (.error failure, after) →
      part.BeginsAt source there →
      inside (source.unclosedBefore (part.firstToken there)) →
      Tracked source limit depth rule lexer opened inside (.error failure, after)
  | other {failure : Failure} {after : Lexer} : (∀ limit', ¬ failure.IsTooDeep limit') →
      Tracked source limit depth rule lexer opened inside (.error failure, after)

/-- Reading by the rule from here comes to that. -/
def Rule.Tracks {α : Type} (source : Source) (limit depth : Nat) (rule : Rule α)
    (lexer : Lexer) (opened : List Token) (inside : List Token → Prop) : Prop :=
  Tracked source limit depth rule lexer opened inside (rule.runAt limit depth lexer)

/-- Wherever these brackets are open, reading by the rule leaves them open. -/
def Rule.Balances {α : Type} (source : Source) (limit depth : Nat) (opened : List Token)
    (inside : List Token → Prop) (rule : Rule α) : Prop :=
  ∀ lexer : Lexer, lexer.IsOn source → source.unclosedBefore lexer.current = opened →
    rule.Tracks source limit depth lexer opened inside

section

variable {α β : Type} {opened opened' : List Token} {inside inside' : List Token → Prop}
variable {rule : Rule α}

open Rule

theorem Parser.not_isTooDeep_of_ask {question : Lexer → Except LexicalError Token × Lexer}
    {failure : Failure}
    (outcome : Parser.ask question lexer = (.error failure, after)) (limit : Nat) :
    ¬ failure.IsTooDeep limit := by
  rintro ⟨ordinal, rfl⟩
  unfold Parser.ask at outcome
  generalize question lexer = answer at outcome
  rcases answer with ⟨_ | _, _⟩ <;> cases outcome

theorem Parser.not_isTooDeep_of_look {vantage : Vantage} {failure : Failure}
    (outcome : Parser.look vantage lexer = (.error failure, after)) (limit : Nat) :
    ¬ failure.IsTooDeep limit := by
  cases vantage with
  | last | current => cases outcome
  | ahead =>
      change Parser.ask Lexer.lookahead lexer = _ at outcome
      exact not_isTooDeep_of_ask outcome limit

theorem Tracked.through {rule' : Rule α} {lexer' : Lexer}
    {result : Except Failure α × Lexer}
    (tracked : Tracked source limit depth rule lexer opened inside result)
    (enters : ∀ {part : Nonterminal} {there : Lexer},
      Enters limit (.nested part) depth there depth rule lexer →
      Enters limit (.nested part) depth there depth rule' lexer') :
    Tracked source limit depth rule' lexer' opened inside result := by
  cases tracked with
  | value same => exact .value same
  | refused entered refused begins here =>
      exact .refused (enters entered) refused begins here
  | other other => exact .other other

namespace Rule.Tracks

theorem mono (tracks : rule.Tracks source limit depth lexer opened inside)
    (le : ∀ more, inside more → inside' more) :
    rule.Tracks source limit depth lexer opened inside' := by
  unfold Tracks at tracks ⊢
  generalize rule.runAt limit depth lexer = result at tracks
  cases tracks with
  | value same => exact .value same
  | refused enters refused begins here => exact .refused enters refused begins (le _ here)
  | other other => exact .other other

theorem pure {value : α} : (Pure.pure value : Rule α).Tracks source limit depth lexer
    (source.unclosedBefore lexer.current) inside :=
  .value rfl

theorem refuse {blamed : Vantage} {fault : GrammarFault} (misfit : fault.IsMisfit) :
    (Rule.refuse blamed fault : Rule α).Tracks source limit depth lexer
      opened inside := by
  change Tracked source limit depth _ lexer opened inside
    (Parser.refuse blamed fault lexer)
  unfold Parser.refuse Parser.bind
  cases looked : Parser.look blamed lexer with
  | mk answer after =>
  cases answer with
  | error failure => exact .other (Parser.not_isTooDeep_of_look looked)
  | ok token =>
      refine .other fun limit => ?_
      rintro ⟨ordinal, equal⟩
      cases equal
      exact misfit limit rfl

theorem bind {first : Rule α} {second : α → Rule β} (isOn : lexer.IsOn source)
    (before : first.Tracks source limit depth lexer opened inside)
    (behind : ∀ value middle, first.runAt limit depth lexer = (.ok value, middle) →
      middle.IsOn source →
      source.unclosedBefore middle.current = opened →
      (second value).Tracks source limit depth middle opened' inside) :
    (first >>= second).Tracks source limit depth lexer opened' inside := by
  change Tracked source limit depth (.bind first second) lexer opened' inside
    (Parser.bind (first.runAt limit depth)
      (fun value => (second value).runAt limit depth) lexer)
  unfold Tracks at before
  unfold Parser.bind
  cases run : first.runAt limit depth lexer with
  | mk outcome middle =>
  rw [run] at before
  cases before with
  | refused enters refused begins here =>
      exact .refused (.first enters) refused begins here
  | other other => exact .other other
  | @value value _ same =>
      have rest := behind value middle run (isOn_runAt isOn run).1 same
      unfold Tracks at rest
      exact rest.through (.second run)

theorem located {build : Rule (Extent → α)}
    (tracks : build.Tracks source limit depth lexer opened inside) :
    (Rule.located build).Tracks source limit depth lexer opened inside := by
  change Tracked source limit depth _ lexer opened inside
    (Parser.located (build.runAt limit depth) lexer)
  unfold Tracks at tracks
  unfold Parser.located Parser.bind
  generalize build.runAt limit depth lexer = result at tracks
  cases tracks with
  | value same => exact .value same
  | refused enters refused begins here =>
      exact .refused (.located enters) refused begins here
  | other other => exact .other other

theorem peek_bind {second : Lexeme → Rule α}
    (tracks : (second lexer.current.lexeme).Tracks source limit depth lexer
      opened inside) :
    (Rule.peek .current >>= second).Tracks source limit depth lexer opened inside := by
  unfold Tracks at tracks
  exact tracks.through (.second rfl)

theorem advance (isOn : lexer.IsOn source) : Rule.advance.Tracks source limit depth lexer
    (lexer.current.unclosed (source.unclosedBefore lexer.current)) inside := by
  unfold Tracks
  cases outcome : Rule.advance.runAt limit depth lexer with
  | mk result after =>
  cases result with
  | ok value =>
      obtain ⟨token, moved⟩ := runAt_advance_eq_ok outcome
      exact .value (isOn.unclosedBefore_advance moved)
  | error failure =>
      change Parser.bind (Parser.ask Lexer.advance) _ lexer = _ at outcome
      unfold Parser.bind at outcome
      cases answer : Parser.ask Lexer.advance lexer with
      | mk result there =>
      rw [answer] at outcome
      cases result with
      | ok token => cases outcome
      | error failure =>
          cases outcome
          exact .other (Parser.not_isTooDeep_of_ask answer)

/-- A part that is read leaves open what was open before it. -/
theorem nested {part : Nonterminal} (begins : part.BeginsAt source lexer)
    (leaves : ∀ value after, (Rule.nested part).runAt limit depth lexer =
      (.ok value, after) →
      source.unclosedBefore after.current = opened) :
    (Rule.nested part).Tracks source limit depth lexer opened
      (· = source.unclosedBefore (part.firstToken lexer)) := by
  unfold Tracks
  cases outcome : (Rule.nested part).runAt limit depth lexer with
  | mk result after =>
  cases result with
  | ok value => exact .value (leaves value after outcome)
  | error failure => exact .refused .here outcome begins rfl

theorem advance_other (isOn : lexer.IsOn source)
    (other : lexer.current.lexeme.isBracket = false) :
    Rule.advance.Tracks source limit depth lexer
      (source.unclosedBefore lexer.current) inside := by
  have tracks : Rule.advance.Tracks source limit depth lexer _ inside := advance isOn
  rwa [Token.unclosed_of_not_isBracket other] at tracks

end Rule.Tracks

namespace Rule.Balances

variable {first : Rule α} {second : α → Rule β} {item : Rule α}

theorem pure (value : α) :
    (Pure.pure value : Rule α).Balances source limit depth opened inside := by
  rintro lexer _ rfl
  exact .pure

theorem refuse {blamed : Vantage} {fault : GrammarFault} (misfit : fault.IsMisfit) :
    (Rule.refuse blamed fault : Rule α).Balances source limit depth opened inside :=
  fun _ _ _ => .refuse misfit

theorem bind (before : first.Balances source limit depth opened inside)
    (behind : ∀ value, (second value).Balances source limit depth opened inside) :
    (first >>= second).Balances source limit depth opened inside :=
  fun lexer isOn same => (before lexer isOn same).bind isOn fun value middle _ =>
    behind value middle

theorem map {build : α → β} (balances : rule.Balances source limit depth opened inside) :
    (build <$> rule).Balances source limit depth opened inside :=
  balances.bind fun _ => pure _

theorem located {build : Rule (Extent → α)}
    (balances : build.Balances source limit depth opened inside) :
    (Rule.located build).Balances source limit depth opened inside :=
  fun lexer isOn same => (balances lexer isOn same).located

theorem peek (vantage : Vantage) :
    (Rule.peek vantage).Balances source limit depth opened inside := by
  rintro lexer isOn rfl
  unfold Tracks
  change Tracked source limit depth _ lexer _ inside
    (Parser.bind (Parser.look vantage) _ lexer)
  unfold Parser.bind
  cases looked : Parser.look vantage lexer with
  | mk answer after =>
  cases answer with
  | error failure => exact .other (Parser.not_isTooDeep_of_look looked)
  | ok token =>
      refine .value (congrArg source.unclosedBefore ?_)
      cases vantage with
      | last | current =>
          cases looked
          rfl
      | ahead =>
          change Parser.ask Lexer.lookahead lexer = _ at looked
          unfold Parser.ask at looked
          cases answer : lexer.lookahead with
          | mk result there =>
          rw [answer] at looked
          cases result with
          | error error => cases looked
          | ok next =>
              cases looked
              exact (isOn.lookahead answer).2

theorem optional (condition : Bool)
    (balances : rule.Balances source limit depth opened inside) :
    (Rule.optional condition rule).Balances source limit depth opened inside := by
  unfold Rule.optional
  split
  · exact balances.map
  · exact pure _

/-! ### Single tokens -/

theorem takeIf {fits : Lexeme → Bool}
    (others : ∀ lexeme, fits lexeme = true → lexeme.isBracket = false) :
    (Rule.takeIf fits).Balances source limit depth opened inside := by
  rintro lexer isOn rfl
  refine .peek_bind ?_
  split
  next fit =>
    exact (Tracks.advance_other isOn (others _ fit)).bind isOn fun _ middle _ =>
      pure true middle
  next => exact .pure

theorem optionalMark {punctuator : Punctuator}
    (other : (Lexeme.punctuator punctuator).isBracket = false) :
    (Rule.optionalMark punctuator).Balances source limit depth opened inside :=
  takeIf fun lexeme fits => by rw [eq_of_beq fits, other]

theorem optionalKeyword (word : String) :
    (Rule.optionalKeyword word).Balances source limit depth opened inside :=
  takeIf fun _ fits => congrArg Lexeme.isBracket (eq_of_beq fits)

theorem keyword (word : String) :
    (Rule.keyword word).Balances source limit depth opened inside := by
  rintro lexer isOn rfl
  refine .peek_bind ?_
  split
  next fits => exact .advance_other isOn (congrArg Lexeme.isBracket (eq_of_beq fits))
  next => exact .refuse fun _ => nofun

theorem expect {kind : TokenKind}
    (others : ∀ lexeme : Lexeme, lexeme.kind = kind → lexeme.isBracket = false) :
    (Rule.expect kind).Balances source limit depth opened inside := by
  rintro lexer isOn rfl
  refine .peek_bind ?_
  split
  next fits => exact .advance_other isOn (others _ fits)
  next => exact .refuse fun _ => nofun

theorem mark {punctuator : Punctuator}
    (other : (Lexeme.punctuator punctuator).isBracket = false) :
    (Rule.mark punctuator).Balances source limit depth opened inside :=
  expect fun lexeme fits => by rw [Lexeme.kind_eq_punctuator.mp fits, other]

theorem atMark (punctuator : Punctuator) :
    (Rule.atMark punctuator).Balances source limit depth opened inside :=
  (peek .current).bind fun _ => pure _

/-! ### Several items -/

theorem unrolled (promises : Lexeme → Bool)
    (balances : item.Balances source limit depth opened inside)
    (count : Nat) :
    (Rule.unrolled promises item count).Balances source limit depth opened inside := by
  induction count with
  | zero => exact pure []
  | succ count induction =>
      refine (peek .current).bind fun found => ?_
      split
      · exact balances.bind fun value => induction.bind fun values => pure _
      · exact pure []

theorem repeatWhile (promises : Lexeme → Bool)
    (balances : item.Balances source limit depth opened inside) :
    (Rule.repeatWhile promises item).Balances source limit depth opened inside := by
  intro lexer isOn same
  have tracks := balances.unrolled promises (Parser.tokenBound lexer) lexer isOn same
  unfold Tracks at tracks
  rw [runAt, run_unrolled] at tracks
  exact tracks.through .repeatWhile

theorem separated {separator : Punctuator}
    (other : (Lexeme.punctuator separator).isBracket = false)
    (balances : item.Balances source limit depth opened inside) :
    (Rule.separated separator item).Balances source limit depth opened inside :=
  (optionalMark other).bind fun _ => balances.bind fun _ =>
    (repeatWhile _ ((mark other).bind fun _ => balances)).bind fun _ => pure _

end Rule.Balances

namespace Rule.Tracks

variable {opening closing : Punctuator} {item : Rule α}

theorem mark (punctuator : Punctuator) (isOn : lexer.IsOn source) :
    (Rule.mark punctuator).Tracks source limit depth lexer
      (lexer.current.unclosed (source.unclosedBefore lexer.current)) inside := by
  refine .peek_bind ?_
  split
  next => exact advance isOn
  next => exact .refuse fun _ => nofun

/-- Behind the items, what has been opened in front of them is closed. -/
theorem itemsUntil (isOn : lexer.IsOn source)
    (balances : item.Balances source limit depth
      (source.unclosedBefore lexer.current) inside)
    (closes : ∀ last : Token, last.lexeme = .punctuator closing →
      last.unclosed (source.unclosedBefore lexer.current) = opened) :
    (Rule.itemsUntil closing item).Tracks source limit depth lexer opened inside := by
  refine (balances.repeatWhile _ lexer isOn rfl).bind isOn
    fun items middle _ isOn same => ?_
  refine (mark closing isOn).bind isOn fun _ after marked isOn same' => ?_
  have closed := closes middle.current (runAt_mark_eq_ok marked).1
  rw [← closed, ← same, ← same']
  exact .pure

theorem any (closed : opening.ClosedBy closing) (isOn : lexer.IsOn source)
    (balances : lexer.current.lexeme = .punctuator opening →
      item.Balances source limit depth
      (lexer.current.unclosed (source.unclosedBefore lexer.current)) inside) :
    (Rule.any opening item closing).Tracks source limit depth lexer
      (source.unclosedBefore lexer.current) inside := by
  refine (mark opening isOn).bind isOn fun _ middle marked isOn same => ?_
  have isFirst := (runAt_mark_eq_ok marked).1
  exact itemsUntil isOn (same ▸ balances isFirst) fun last isLast =>
    same ▸ closed _ _ _ isFirst isLast

theorem many (closed : opening.ClosedBy closing) (isOn : lexer.IsOn source)
    (balances : lexer.current.lexeme = .punctuator opening →
      item.Balances source limit depth
      (lexer.current.unclosed (source.unclosedBefore lexer.current)) inside) :
    (Rule.many opening item closing).Tracks source limit depth lexer
      (source.unclosedBefore lexer.current) inside := by
  refine (mark opening isOn).bind isOn fun _ middle marked isOn same => ?_
  have isFirst := (runAt_mark_eq_ok marked).1
  refine (balances isFirst middle isOn same).bind isOn
    fun first middle' _ isOn same' => ?_
  refine bind isOn (itemsUntil isOn (same' ▸ balances isFirst) fun last isLast =>
    same' ▸ closed _ _ _ isFirst isLast) fun others after _ _ same'' => ?_
  rw [← same'']
  exact pure

theorem optionalMany (closed : opening.ClosedBy closing) (isOn : lexer.IsOn source)
    (balances : lexer.current.lexeme = .punctuator opening →
      item.Balances source limit depth
      (lexer.current.unclosed (source.unclosedBefore lexer.current)) inside) :
    (Rule.optionalMany opening item closing).Tracks source limit depth lexer
      (source.unclosedBefore lexer.current) inside := by
  refine bind isOn (Balances.atMark opening lexer isOn rfl)
    fun there middle looked _ _ => ?_
  cases looked
  split
  · exact many closed isOn balances
  · exact pure

end Rule.Tracks

end

end GraphQL
