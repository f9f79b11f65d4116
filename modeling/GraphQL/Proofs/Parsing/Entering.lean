import GraphQL.Proofs.Parsing.Faults

/-! What a parse comes to on its way.

To read by a rule is to read by others, one after another and within one another. Where
one of them fails, the whole fails in the same way, and all of them go along the tokens of
one source. -/

namespace GraphQL

namespace Rule

/-- Reads by a rule with so many levels left of parts within one another. -/
def runAt {α : Type} (rule : Rule α) (limit depth : Nat) : Parser α :=
  rule.run (Parser.nonterminal limit depth)

theorem readBy_eq {Tree : Type → Type} {rule : Rule (Tree Extent)}
    (map : (Extent → ParseOptions.Note) → Tree Extent → Tree ParseOptions.Note)
    (options : ParseOptions)
    {lexer after : Lexer} {outcome : Except Failure (Tree Extent)}
    (read : rule.runAt options.maxNestingDepth options.maxNestingDepth lexer =
      (outcome, after)) :
    (readBy rule map options lexer).1 =
      (outcome.map (map (options.note after.significantTokens.toArray))).mapError
        (Failure.diagnostic after.source options after.significantTokens.toArray) := by
  have read' : Parser.ofRule rule options.maxNestingDepth lexer = (outcome, after) := read
  unfold readBy
  rw [read']
  cases outcome <;> rfl

/-- Reads items as long as another is promised, but no more than `limit`,
without a repetition. -/
def unrolled {α : Type} (promises : Lexeme → Bool) (item : Rule α) :
    (limit : Nat) → Rule (List α)
  | 0 => pure []
  | limit + 1 =>
      bind (peek .current) fun found =>
        if promises found then
          bind item fun value => bind (unrolled promises item limit) fun values =>
            pure (value :: values)
        else pure []

/-- Reading by a rule, from where a lexer stands and with so many levels left, comes to
read by the goal, with so many levels left then and from where the lexer stands then. -/
inductive Enters (limit : Nat) {β : Type} (goal : Rule β) (left : Nat) (there : Lexer) :
    {α : Type} → (depth : Nat) → Rule α → Lexer → Prop
  | here : Enters limit goal left there left goal there
  | first {α γ : Type} {depth : Nat} {first : Rule α} {second : α → Rule γ}
      {lexer : Lexer} :
      Enters limit goal left there depth first lexer →
      Enters limit goal left there depth (.bind first second) lexer
  | second {α γ : Type} {depth : Nat} {first : Rule α} {second : α → Rule γ} {value : α}
      {lexer middle : Lexer} : first.runAt limit depth lexer = (.ok value, middle) →
      Enters limit goal left there depth (second value) middle →
      Enters limit goal left there depth (.bind first second) lexer
  | located {α : Type} {depth : Nat} {rule : Rule (Extent → α)} {lexer : Lexer} :
      Enters limit goal left there depth rule lexer →
      Enters limit goal left there depth (.located rule) lexer
  | repeatWhile {α : Type} {depth : Nat} {promises : Lexeme → Bool} {item : Rule α}
      {lexer : Lexer} :
      Enters limit goal left there depth
        (unrolled promises item (Parser.tokenBound lexer)) lexer →
      Enters limit goal left there depth (.repeatWhile promises item) lexer
  | nested {depth : Nat} {part : Nonterminal} {lexer : Lexer} :
      Enters limit goal left there depth (Grammar.production part) lexer →
      Enters limit goal left there (depth + 1) (.nested part) lexer

variable {α β : Type}

theorem run_unrolled (deeper : (part : Nonterminal) → Parser part.Tree)
    (promises : Lexeme → Bool) (item : Rule α) (limit : Nat) :
    (unrolled promises item limit).run deeper =
      Parser.repeatWhile promises (item.run deeper) limit := by
  induction limit with
  | zero => rfl
  | succ limit induction =>
      funext lexer
      change Rule.run deeper (if promises lexer.current.lexeme then _ else _) lexer = _
      simp only [Parser.repeatWhile, ← induction]
      split <;> rfl

/-! ## What comes of a value -/

section

variable {limit depth : Nat} {lexer after : Lexer}

theorem runAt_bind_eq_ok {first : Rule α} {second : α → Rule β} {value : β} :
    (first >>= second).runAt limit depth lexer = (.ok value, after) ↔
      ∃ given middle, first.runAt limit depth lexer = (.ok given, middle) ∧
        (second given).runAt limit depth middle = (.ok value, after) := by
  change Parser.bind (first.runAt limit depth)
    (fun given => (second given).runAt limit depth) lexer = _ ↔ _
  unfold Parser.bind
  rcases first.runAt limit depth lexer with ⟨failure | given, middle⟩
  · simp
  · simp only [Prod.mk.injEq, Except.ok.injEq]
    constructor
    · exact fun outcome => ⟨given, middle, ⟨rfl, rfl⟩, outcome⟩
    · rintro ⟨_, _, ⟨rfl, rfl⟩, outcome⟩
      exact outcome

theorem runAt_located_eq_ok {rule : Rule (Extent → α)} {value : α} :
    (located rule).runAt limit depth lexer = (.ok value, after) ↔
      ∃ build, rule.runAt limit depth lexer = (.ok build, after) ∧
        value = build ⟨lexer.current.ordinal, after.last.ordinal⟩ := by
  change Parser.located (rule.runAt limit depth) lexer = _ ↔ _
  unfold Parser.located Parser.bind
  rcases rule.runAt limit depth lexer with ⟨failure | build, middle⟩
  · simp
  · simp only [Prod.mk.injEq, Except.ok.injEq]
    constructor
    · rintro ⟨rfl, rfl⟩
      exact ⟨build, ⟨rfl, rfl⟩, rfl⟩
    · rintro ⟨_, ⟨rfl, rfl⟩, rfl⟩
      exact ⟨rfl, rfl⟩

theorem runAt_advance_eq_ok
    (outcome : advance.runAt limit depth lexer = (.ok (), after)) :
    ∃ token, lexer.advance = (.ok token, after) := by
  change Parser.bind (Parser.ask Lexer.advance) (fun _ => Parser.pure ()) lexer =
    _ at outcome
  unfold Parser.bind Parser.ask at outcome
  generalize lexer.advance = answer at outcome
  obtain ⟨error | token, after'⟩ := answer <;> cases outcome
  exact ⟨token, rfl⟩

theorem runAt_refuse_ne_ok (blamed : Vantage) (fault : GrammarFault) (value : α) :
    (refuse blamed fault).runAt limit depth lexer ≠ (.ok value, after) := by
  change Parser.bind (Parser.look blamed) _ lexer ≠ _
  unfold Parser.bind
  rcases Parser.look blamed lexer with ⟨_ | _, _⟩ <;> exact nofun

theorem runAt_mark_eq_ok {punctuator : Punctuator}
    (outcome : (mark punctuator).runAt limit depth lexer = (.ok (), after)) :
    lexer.current.lexeme = .punctuator punctuator ∧
      ∃ token, lexer.advance = (.ok token, after) := by
  change Rule.runAt (if lexer.current.lexeme.kind = .punctuator punctuator then advance
    else _) _ _ _ = _ at outcome
  split at outcome
  next fits => exact ⟨Lexeme.kind_eq_punctuator.mp fits, runAt_advance_eq_ok outcome⟩
  next => exact (runAt_refuse_ne_ok _ _ _ outcome).elim

theorem runAt_name_eq_ok {name : Name Extent}
    (outcome : Grammar.name.runAt limit depth lexer = (.ok name, after)) :
    lexer.current.lexeme = .name name.text ∧
      ∃ token, lexer.advance = (.ok token, after) := by
  obtain ⟨build, inside, rfl⟩ := runAt_located_eq_ok.mp outcome
  obtain ⟨_, _, looked, taken⟩ := runAt_bind_eq_ok.mp inside
  cases looked
  split at taken
  next text isName =>
    obtain ⟨_, middle, advanced, built⟩ := runAt_bind_eq_ok.mp taken
    cases built
    exact ⟨isName, runAt_advance_eq_ok advanced⟩
  next => exact (runAt_refuse_ne_ok _ _ _ taken).elim

theorem runAt_variableReference_eq_ok {use : Variable Extent}
    (outcome : Grammar.variableReference.runAt limit depth lexer = (.ok use, after)) :
    lexer.current.lexeme = .punctuator .dollar ∧
      use.location.first = lexer.current.ordinal ∧
      ∃ next last middle, lexer.advance = (.ok next, middle) ∧
        middle.current.lexeme = .name use.name.text ∧
        middle.advance = (.ok last, after) := by
  obtain ⟨build, inside, rfl⟩ := runAt_located_eq_ok.mp outcome
  obtain ⟨_, middle, marked, rest⟩ := runAt_bind_eq_ok.mp inside
  obtain ⟨name, _, named, built⟩ := runAt_bind_eq_ok.mp rest
  cases built
  obtain ⟨sign, next, moved⟩ := runAt_mark_eq_ok marked
  obtain ⟨isName, last, moved'⟩ := runAt_name_eq_ok named
  exact ⟨sign, rfl, next, last, middle, moved, isName, moved'⟩

end

/-! ## Rules within rules -/

namespace Enters

variable {limit left depth : Nat} {goal : Rule β} {rule : Rule α} {there lexer : Lexer}

/-- Where the goal fails, the whole does. -/
theorem fails (enters : Enters limit goal left there depth rule lexer) {failure : Failure}
    {after : Lexer} (failed : goal.runAt limit left there = (.error failure, after)) :
    rule.runAt limit depth lexer = (.error failure, after) := by
  induction enters with
  | here => exact failed
  | @first _ _ depth first second lexer _ induction =>
      change Parser.bind (first.runAt limit depth)
        (fun value => (second value).runAt limit depth) lexer = _
      rw [Parser.bind, induction]
  | @second _ _ depth first second _ lexer _ run _ induction =>
      change Parser.bind (first.runAt limit depth)
        (fun value => (second value).runAt limit depth) lexer = _
      rw [Parser.bind, run]
      exact induction
  | @located _ depth rule lexer _ induction =>
      change Parser.located (rule.runAt limit depth) lexer = _
      rw [Parser.located, Parser.bind, induction]
  | repeatWhile _ induction =>
      rw [runAt, run_unrolled] at induction
      exact induction
  | nested _ induction => exact induction

/-- What every step of a lexer keeps is still true where the goal is read. -/
theorem keeps (enters : Enters limit goal left there depth rule lexer)
    {kept : Lexer → Prop}
    (lasts : Lexer.Lasts kept) (start : kept lexer) : kept there := by
  induction enters with
  | here => exact start
  | first _ induction | located _ induction | repeatWhile _ induction
  | nested _ induction => exact induction start
  | @second _ _ depth first _ _ lexer _ run _ induction =>
      have after :=
        Parser.Keeps.run lasts
          (Parser.Keeps.nonterminal lasts limit depth) first lexer start
      rw [← runAt, run] at after
      exact induction after

end Enters

end Rule

end GraphQL
