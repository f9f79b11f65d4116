import GraphQL.Proofs.Parsing.Entering

/-! Reading without bounds.

A parser gives up a loop after a number of rounds that it takes from the size of the
source. Here nothing but its own condition ends a loop, and reading is a relation: what
goes on for ever comes to no result. -/

namespace GraphQL

namespace Parser

/-- What reading finishes with, from where a lexer stands -/
abbrev Finish (α : Type) := Lexer → Except Failure α × Lexer → Prop

def Finish.IsSingle {α : Type} (finish : Finish α) : Prop :=
  ∀ lexer result result', finish lexer result → finish lexer result' → result' = result

def Finish.bind {α β : Type} (first : Finish α) (second : α → Finish β) : Finish β :=
  fun lexer result => ∃ outcome middle, first lexer (outcome, middle) ∧
    match outcome with
    | .ok value => second value middle result
    | .error failure => result = (.error failure, middle)

def Finish.located {α : Type} (inside : Finish (Extent → α)) : Finish α :=
  fun lexer result => ∃ outcome after, inside lexer (outcome, after) ∧
    result = (outcome.map (· ⟨lexer.current.ordinal, after.last.ordinal⟩), after)

/-- How a loop goes if nothing but its own condition bounds it: after so many rounds, it
finishes with a result. -/
inductive Rounds {α : Type} (promises : Lexeme → Bool) (item : Finish α) :
    (count : Nat) → Finish (List α)
  | done {lexer : Lexer} : promises lexer.current.lexeme = false →
      Rounds promises item 0 lexer (.ok [], lexer)
  | failed {lexer after : Lexer} {failure : Failure} :
      promises lexer.current.lexeme = true →
      item lexer (.error failure, after) →
      Rounds promises item 1 lexer (.error failure, after)
  | more {count : Nat} {lexer middle after : Lexer} {value : α}
      {outcome : Except Failure (List α)} :
      promises lexer.current.lexeme = true → item lexer (.ok value, middle) →
      Rounds promises item count middle (outcome, after) →
      Rounds promises item (count + 1) lexer (outcome.map (value :: ·), after)

end Parser

open GraphQL.Parser (Finish Rounds)

/-- What reading by a rule finishes with, given what reading a level deeper does. Nothing
bounds the loops, so one that went on and on would finish with nothing. -/
def Rule.Finishes (deeper : (part : Nonterminal) → Finish part.Tree) {α : Type} :
    Rule α → Finish α
  | .pure value => fun lexer result => result = Parser.pure value lexer
  | .bind first second =>
      (first.Finishes deeper).bind fun value => (second value).Finishes deeper
  | .peek vantage => fun lexer result =>
      result = Parser.bind (Parser.look vantage)
        (fun token => Parser.pure token.lexeme) lexer
  | .advance => fun lexer result =>
      result = Parser.bind (Parser.ask Lexer.advance) (fun _ => Parser.pure ()) lexer
  | .refuse blamed fault => fun lexer result => result = Parser.refuse blamed fault lexer
  | .located rule => (rule.Finishes deeper).located
  | .repeatWhile promises item => fun lexer result =>
      ∃ count, Rounds promises (item.Finishes deeper) count lexer result
  | .nested part => deeper part

/-- Reading a part finishes with a result, with at most so many levels of
parts within one another. -/
def Parser.Finishes (limit : Nat) :
    (depth : Nat) → (part : Nonterminal) → Finish part.Tree
  | 0, _ =>
      fun lexer result => result = Parser.refuse .current (.nestedTooDeep limit) lexer
  | depth + 1, part => (Grammar.production part).Finishes (Finishes limit depth)

/-- Reading by a rule finishes with a result, with so many levels left of
parts within one another. -/
def Rule.FinishesAt {α : Type} (limit depth : Nat) (rule : Rule α) : Finish α :=
  rule.Finishes (Parser.Finishes limit depth)

namespace Parser

variable {α : Type} {promises : Lexeme → Bool} {item : Finish α}

theorem Rounds.unique (single : item.IsSingle) {count count' : Nat} {lexer : Lexer}
    {result result' : Except Failure (List α) × Lexer}
    (rounds : Rounds promises item count lexer result)
    (rounds' : Rounds promises item count' lexer result') : result' = result := by
  induction rounds generalizing count' result' with
  | done unpromised =>
      cases rounds' with
      | done => rfl
      | failed promised | more promised => simp [unpromised] at promised
  | failed promised failed =>
      cases rounds' with
      | done unpromised => simp [unpromised] at promised
      | failed _ failed' => cases single _ _ _ failed failed'; rfl
      | more _ read => cases single _ _ _ failed read
  | more promised read _ induction =>
      cases rounds' with
      | done unpromised => simp [unpromised] at promised
      | failed _ failed => cases single _ _ _ read failed
      | more _ read' rest =>
          cases single _ _ _ read read'
          cases induction rest
          rfl

end Parser

namespace Rule

theorem isSingle_finishes {deeper : (part : Nonterminal) → Finish part.Tree}
    (single : ∀ part, (deeper part).IsSingle) {α : Type} (rule : Rule α) :
    (rule.Finishes deeper).IsSingle := by
  induction rule with
  | pure | peek | advance | refuse =>
      exact fun _ _ _ same same' => Eq.trans same' same.symm
  | bind first second before behind =>
      rintro lexer result result' ⟨outcome, middle, first, second⟩ ⟨_, _, first', second'⟩
      cases before _ _ _ first first'
      cases outcome with
      | ok value => exact behind value _ _ _ second second'
      | error failure => exact Eq.trans second' second.symm
  | located rule induction =>
      rintro lexer _ _ ⟨_, _, inside, rfl⟩ ⟨_, _, inside', rfl⟩
      cases induction _ _ _ inside inside'
      rfl
  | repeatWhile promises item induction =>
      rintro lexer result result' ⟨_, rounds⟩ ⟨_, rounds'⟩
      exact rounds.unique induction rounds'
  | nested part => exact single part

/-- There is one result at most that reading by a rule finishes with. -/
theorem isSingle_finishesAt {α : Type} (rule : Rule α) (limit depth : Nat) :
    (rule.FinishesAt limit depth).IsSingle := by
  refine isSingle_finishes ?_ rule
  induction depth with
  | zero => exact fun part lexer _ _ same same' => Eq.trans same' same.symm
  | succ depth induction =>
      exact fun part => isSingle_finishes induction (Grammar.production part)

end Rule

end GraphQL
