import GraphQL.Parser

/-! Counting levels.

Instead of being told how many levels are left, a parser may count the parts that lie
around what it reads, and refuse a part that would lie too deep. It reads the same then,
and has the same count before and after. -/

namespace GraphQL

variable {α β : Type}

/-- How far a parser has come: where its lexer stands, and how many parts
lie around that -/
structure Descent where
  lexer : Lexer
  depth : Nat

/-- A way to read something that counts the levels on its way -/
abbrev Counter (α : Type) := Descent → Except Failure α × Descent

namespace Counter

def ofParser (parser : Parser α) : Counter α :=
  fun descent =>
    let (outcome, lexer) := parser descent.lexer
    (outcome, { descent with lexer })

def bind (first : Counter α) (second : α → Counter β) : Counter β :=
  fun descent =>
    match first descent with
    | (.ok value, descent) => second value descent
    | (.error failure, descent) => (.error failure, descent)

def located (counter : Counter (Extent → α)) : Counter α :=
  fun descent => bind counter (fun build after =>
    (.ok (build ⟨descent.lexer.current.ordinal, after.lexer.last.ordinal⟩), after))
      descent

def repeatWhile (promises : Lexeme → Bool) (item : Counter α) :
    (limit : Nat) → Counter (List α)
  | 0 => ofParser (.pure [])
  | limit + 1 => fun descent =>
      if promises descent.lexer.current.lexeme then
        bind item (fun value => bind (repeatWhile promises item limit) fun values =>
          ofParser (.pure (value :: values))) descent
      else ofParser (.pure []) descent

/-- Reads a part one level deeper, unless it would lie too deep. However that
ends, the level is left again. -/
def nested (limit : Nat) (part : Counter α) : Counter α :=
  fun descent =>
    if limit ≤ descent.depth
      then ofParser (.refuse .current (.nestedTooDeep limit)) descent
    else
      let (outcome, after) := part { descent with depth := descent.depth + 1 }
      (outcome, { after with depth := after.depth - 1 })

end Counter

def Rule.count (deeper : (part : Nonterminal) → Counter part.Tree) {α : Type} :
    Rule α → Counter α
  | .pure value => .ofParser (.pure value)
  | .bind first second =>
      .bind (first.count deeper) fun value => (second value).count deeper
  | .peek vantage => .ofParser (.bind (.look vantage) fun token => .pure token.lexeme)
  | .advance => .ofParser (.bind (.ask Lexer.advance) fun _ => .pure ())
  | .refuse blamed fault => .ofParser (.refuse blamed fault)
  | .located rule => .located (rule.count deeper)
  | .repeatWhile promises item => fun descent =>
      Counter.repeatWhile promises (item.count deeper)
        (Parser.tokenBound descent.lexer) descent
  | .nested part => deeper part

namespace Counter

def nonterminal (limit : Nat) : (bound : Nat) → (part : Nonterminal) → Counter part.Tree
  | 0, _ => ofParser (.refuse .current (.nestedTooDeep limit))
  | bound + 1, part =>
      nested limit ((Grammar.production part).count (nonterminal limit bound))

def ofRule (rule : Rule α) (limit : Nat) : Counter α :=
  rule.count (nonterminal limit (limit + 1))

/-- Whoever counts reads what the parser reads, and has the same count
before and after. -/
def Mirrors (depth : Nat) (counter : Counter α) (parser : Parser α) : Prop :=
  ∀ lexer, counter ⟨lexer, depth⟩ = ((parser lexer).1, ⟨(parser lexer).2, depth⟩)

namespace Mirrors

variable {depth : Nat}

theorem ofParser (parser : Parser α) :
    Mirrors depth (.ofParser parser) parser := fun _ => rfl

theorem bind {first : Counter α} {second : α → Counter β} {first' : Parser α}
    {second' : α → Parser β}
    (mirrors : Mirrors depth first first')
    (mirrors' : ∀ value, Mirrors depth (second value) (second' value)) :
    Mirrors depth (.bind first second) (.bind first' second') := by
  intro lexer
  rw [Counter.bind, Parser.bind, mirrors lexer]
  rcases first' lexer with ⟨failure | value, after⟩
  · rfl
  · exact mirrors' value after

theorem located {counter : Counter (Extent → α)} {parser : Parser (Extent → α)}
    (mirrors : Mirrors depth counter parser) : Mirrors depth (.located counter)
    (.located parser) :=
  fun lexer => mirrors.bind (fun _ _ => rfl) lexer

theorem repeatWhile {promises : Lexeme → Bool} {item : Counter α} {item' : Parser α}
    (mirrors : Mirrors depth item item') (limit : Nat) :
    Mirrors depth (.repeatWhile promises item limit)
      (.repeatWhile promises item' limit) := by
  induction limit with
  | zero => exact ofParser _
  | succ limit induction =>
      intro lexer
      simp only [Counter.repeatWhile, Parser.repeatWhile]
      split
      · exact mirrors.bind (fun _ => induction.bind fun _ => ofParser _) lexer
      · rfl

theorem count {deeper : (part : Nonterminal) → Counter part.Tree}
    {deeper' : (part : Nonterminal) → Parser part.Tree}
    (below : ∀ part, Mirrors depth (deeper part) (deeper' part)) (rule : Rule α) :
    Mirrors depth (rule.count deeper) (rule.run deeper') := by
  induction rule with
  | pure | peek | advance | refuse => exact ofParser _
  | bind first second before behind => exact before.bind behind
  | located rule induction => exact induction.located
  | repeatWhile promises item induction =>
      exact fun lexer => induction.repeatWhile _ lexer
  | nested part => exact below part

theorem nonterminal {limit levels : Nat} (split : depth + levels = limit) {bound : Nat}
    (lt : levels < bound) (part : Nonterminal) :
    Mirrors depth (Counter.nonterminal limit bound part)
      (Parser.nonterminal limit levels part) := by
  obtain ⟨bound, rfl⟩ := Nat.exists_eq_add_of_le' (Nat.zero_lt_of_lt lt)
  induction levels generalizing depth bound part with
  | zero =>
      intro lexer
      have tooDeep : limit ≤ depth := Nat.le_of_eq split.symm
      rw [Counter.nonterminal, nested, if_pos tooDeep]
      rfl
  | succ levels induction =>
      intro lexer
      have inside : ¬ limit ≤ depth := by omega
      obtain ⟨bound, rfl⟩ :=
        Nat.exists_eq_add_of_le' (Nat.zero_lt_of_lt (Nat.lt_of_succ_lt_succ lt))
      have deeper : depth + 1 + levels = limit := by omega
      have below := count (fun part => induction deeper part bound (by omega))
        (Grammar.production part)
      rw [Counter.nonterminal, nested, if_neg inside, below lexer]
      rfl

theorem ofRule (rule : Rule α) (limit : Nat) :
    Mirrors 0 (.ofRule rule limit) (.ofRule rule limit) :=
  count (nonterminal (Nat.zero_add limit) (Nat.lt_succ_self limit)) rule

end Mirrors

end Counter

end GraphQL
