import GraphQL.Proofs.Lexing.Lexer
import GraphQL.Proofs.Reading.Reader

/-! Parsing a source is reading from the list of its tokens. -/

namespace GraphQL

variable {α β : Type} {source : Source} {tokens : List Token}
variable {ending : Option LexicalError}

def Source.terms (source : Source) (ending : Option LexicalError) (limit : Nat) : Terms :=
  ⟨extentBetween, limit, source.size + 2, ending⟩

/-- The token that a failure blames has been read. -/
def Failure.Within (failure : Failure) (lexer : Lexer) : Prop :=
  match failure with
  | .lexical _ => True
  | .grammatical _ blamed => blamed < lexer.significantTokens.length

/-- A parser comes to the same result as a reader, if that comes to any. -/
inductive Agree (source : Source) (tokens : List Token) (ending : Option LexicalError) :
    Except (Option Failure) (α × Place) → Except Failure α × Lexer → Prop
  | value {value : α} {lexer place} : lexer.Stands source tokens ending place →
      Agree source tokens ending (.ok (value, place)) (.ok value, lexer)
  | failure {failure : Failure} {lexer place} : failure.Within lexer →
      lexer.Stands source tokens ending place →
      Agree source tokens ending (.error (some failure)) (.error failure, lexer)
  | stuck {result} : Agree source tokens ending (.error none) result

def Simulates (source : Source) (tokens : List Token) (ending : Option LexicalError)
    (reader : Reader α) (parser : Parser α) : Prop :=
  ∀ {lexer place}, lexer.Stands source tokens ending place →
    Agree source tokens ending (reader place) (parser lexer)

namespace Simulates

theorem pure (value : α) :
    Simulates source tokens ending (Reader.pure value) (Parser.pure value) :=
  fun stands => .value stands

theorem bind {first : Reader α} {second : α → Reader β} {first' : Parser α}
    {second' : α → Parser β} (before : Simulates source tokens ending first first')
    (behind : ∀ value, Simulates source tokens ending (second value) (second' value)) :
    Simulates source tokens ending (Reader.bind first second)
      (Parser.bind first' second') := by
  intro lexer place stands
  have agree := before stands
  unfold Reader.bind Parser.bind
  generalize first place = outcome at agree
  generalize first' lexer = result at agree
  cases agree with
  | value stands => exact behind _ stands
  | failure within stands => exact .failure within stands
  | stuck => exact .stuck

theorem located {reader : Reader (Extent → α)}
    {parser : Parser (Extent → α)} {limit : Nat}
    (yields : source.Yields tokens ending)
    (simulates : Simulates source tokens ending reader parser) :
    Simulates source tokens ending (Reader.located (source.terms ending limit) reader)
      (Parser.located parser) := by
  intro lexer place stands
  have agree := simulates stands
  have ordinal := stands.ordinal yields
  unfold Reader.located Parser.located Parser.bind
  generalize reader place = outcome at agree
  generalize parser lexer = result at agree
  cases agree with
  | value stands =>
      simp only [ordinal, stands.last]
      exact .value stands
  | failure within stands => exact .failure within stands
  | stuck => exact .stuck

theorem repeatWhile {item : Reader α} {item' : Parser α} (promises : Lexeme → Bool)
    (simulates : Simulates source tokens ending item item') (limit : Nat) :
    Simulates source tokens ending (Reader.repeatWhile promises item limit)
      (Parser.repeatWhile promises item' limit) := by
  induction limit with
  | zero => exact pure []
  | succ limit induction =>
      intro lexer place stands
      unfold Reader.repeatWhile Parser.repeatWhile
      rw [stands.current_eq]
      split
      · exact simulates.bind (fun value => induction.bind fun values =>
          pure (value :: values)) stands
      · exact pure [] stands

theorem advance (yields : source.Yields tokens ending) (limit : Nat) :
    Simulates source tokens ending (Reader.advance (source.terms ending limit))
      (Parser.bind (Parser.ask Lexer.advance) fun _ => Parser.pure ()) := by
  intro lexer place stands
  have answer := stands.lookahead yields
  unfold Parser.bind Parser.ask Lexer.advance Reader.advance
  generalize lexer.lookahead = result at answer
  cases answer with
  | atEnd isEnd ahead unended =>
      rw [ahead, unended]
      exact .stuck
  | found stands' same found unseen seen =>
      obtain ⟨rest, ahead, _, stands''⟩ := stands'.step yields found unseen seen
      rw [ahead]
      exact .value stands''
  | fault stands' ended ahead =>
      subst ended
      rw [ahead]
      exact .failure trivial stands'

inductive Sees (source : Source) (tokens : List Token) (ending : Option LexicalError)
    (place : Place) (vantage : Vantage) :
    Except (Option Failure) (Lexeme × Nat) → Except Failure Token × Lexer → Prop
  | token {lexeme ordinal token lexer} : lexer.Stands source tokens ending place →
      token.ordinal = ordinal → ordinal < lexer.significantTokens.length →
      (vantage ≠ .last → token.lexeme = lexeme) →
      Sees source tokens ending place vantage (.ok (lexeme, ordinal)) (.ok token, lexer)
  | fault {error lexer} : lexer.Stands source tokens ending place →
      Sees source tokens ending place vantage (.error (some (.lexical error)))
        (.error (.lexical error), lexer)

theorem sees (yields : source.Yields tokens ending) (limit : Nat) (vantage : Vantage)
    {lexer : Lexer} {place : Place} (stands : lexer.Stands source tokens ending place) :
    Sees source tokens ending place vantage
      (Reader.look (source.terms ending limit) vantage place)
      (Parser.look vantage lexer) := by
  cases vantage with
  | last =>
      exact .token stands stands.last
        (Nat.lt_of_le_of_lt (Nat.sub_le ..) stands.ordinal_lt) fun other =>
          (other rfl).elim
  | current =>
      exact .token stands (stands.ordinal yields) stands.ordinal_lt fun _ =>
        stands.current_eq
  | ahead =>
      have answer := stands.lookahead yields
      simp only [Parser.look, Parser.ask, Reader.look]
      generalize lexer.lookahead = result at answer
      cases answer with
      | atEnd isEnd ahead unended =>
          subst unended
          rw [ahead]
          exact .token stands (stands.ordinal yields) stands.ordinal_lt fun _ =>
            stands.current_eq
      | found stands' same found unseen seen =>
          obtain ⟨rest, ahead, current, stands''⟩ := stands'.step yields found unseen seen
          rw [ahead]
          refine .token stands' (current ▸ stands''.ordinal yields) ?_ fun _ => rfl
          have lt := stands''.ordinal_lt
          rwa [Lexer.significantTokens, Lexer.tokens_step] at lt
      | fault stands' ended ahead =>
          subst ended
          rw [ahead]
          exact .fault stands'

theorem peek (yields : source.Yields tokens ending) (limit : Nat) (vantage : Vantage) :
    Simulates source tokens ending (Reader.peek (source.terms ending limit) vantage)
      (Parser.bind (Parser.look vantage) fun token => Parser.pure token.lexeme) := by
  intro lexer place stands
  by_cases back : vantage = .last
  · subst back
    exact .stuck
  · have sees := sees yields limit vantage stands
    have same : Reader.peek (source.terms ending limit) vantage place =
        (Reader.look (source.terms ending limit) vantage place).map
          fun seen => (seen.1, place) := by
      cases vantage with
      | last => exact (back rfl).elim
      | current => rfl
      | ahead => rfl
    rw [same, Parser.bind]
    generalize Reader.look (source.terms ending limit) vantage place = outcome at sees
    generalize Parser.look vantage lexer = result at sees
    cases sees with
    | token stands _ _ told =>
        rw [← told back]
        exact .value stands
    | fault stands => exact .failure trivial stands

theorem refuse (yields : source.Yields tokens ending) (limit : Nat) (blamed : Vantage)
    (fault : GrammarFault) :
    Simulates source tokens ending
      (Reader.refuse (source.terms ending limit) blamed fault)
      (Parser.refuse blamed fault : Parser α) := by
  intro lexer place stands
  have sees := sees yields limit blamed stands
  unfold Reader.refuse Parser.refuse Parser.bind
  generalize Reader.look (source.terms ending limit) blamed place = outcome at sees
  generalize Parser.look blamed lexer = result at sees
  cases sees with
  | token stands ordinal lt _ =>
      subst ordinal
      exact .failure lt stands
  | fault stands => exact .failure trivial stands

/-- Reading by a rule is simulated, if reading what lies a level deeper is. -/
theorem run (yields : source.Yields tokens ending) {limit : Nat}
    {deeper : (part : Nonterminal) → Reader part.Tree}
    {deeper' : (part : Nonterminal) → Parser part.Tree}
    (below : ∀ part, Simulates source tokens ending (deeper part) (deeper' part))
    (rule : Rule α) :
    Simulates source tokens ending (rule.read (source.terms ending limit) deeper)
      (rule.run deeper') := by
  induction rule with
  | pure value => exact pure value
  | bind first second before behind => exact before.bind behind
  | peek vantage => exact peek yields limit vantage
  | advance => exact advance yields limit
  | refuse blamed fault => exact refuse yields limit blamed fault
  | located rule induction => exact induction.located yields
  | repeatWhile promises item induction =>
      intro lexer place stands
      have bound : Parser.tokenBound lexer =
          (source.terms ending limit).bound - place.ordinal := by
        rw [Parser.tokenBound, stands.source_eq, stands.ordinal yields]
        rfl
      unfold Rule.read Rule.run
      rw [bound]
      exact induction.repeatWhile promises _ stands
  | nested part => exact below part

theorem nonterminal (yields : source.Yields tokens ending) (limit depth : Nat)
    (part : Nonterminal) :
    Simulates source tokens ending
      (Reader.nonterminal (source.terms ending limit) depth part)
      (Parser.nonterminal limit depth part) := by
  induction depth generalizing part with
  | zero => exact refuse yields limit .current (.nestedTooDeep limit)
  | succ depth induction => exact run yields induction (Grammar.production part)

/-- What is parsed by a rule is what is read by it from the list of tokens. -/
theorem ofRule (yields : source.Yields tokens ending) (rule : Rule α) (limit : Nat) :
    Simulates source tokens ending (rule.readAt (source.terms ending limit) limit)
      (Parser.ofRule rule limit) :=
  run yields (nonterminal yields limit limit) rule

end Simulates

end GraphQL
