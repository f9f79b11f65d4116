import GraphQL.Proofs.Reading.Reader

/-! Reading tokens that a fault cuts short.

As long as no token behind the last is asked for, reading cannot tell whether more follow.
So it comes to the same as with more tokens, or else to the fault. -/

namespace GraphQL

variable {α β : Type} {terms : Terms} {error : LexicalError} {more : List Lexeme}

def Terms.upTo (terms : Terms) (error : LexicalError) : Terms :=
  { terms with ending := some error }

/-- What comes of reading up to the fault, given what comes of reading on
with more tokens -/
inductive Truncates (error : LexicalError) (more : List Lexeme) :
    Except (Option Failure) (α × Place) → Except (Option Failure) (α × Place) → Prop
  | value {value : α} {ordinal ahead} : ahead ≠ [] →
      Truncates error more (.ok (value, ⟨ordinal, ahead⟩))
        (.ok (value, ⟨ordinal, ahead ++ more⟩))
  | failure {failure} : Truncates error more (.error failure) (.error failure)
  | fault {outcome} : Truncates error more (.error (some (.lexical error))) outcome

theorem foremost_append {ahead : List Lexeme} (nonempty : ahead ≠ [])
    (more : List Lexeme) :
    foremost (ahead ++ more) = foremost ahead := by
  obtain ⟨found, rest, rfl⟩ := List.exists_cons_of_ne_nil nonempty
  rfl

namespace Reader

/-- The one reader comes to what the other does with more tokens, or to the fault. -/
def UpTo (error : LexicalError) (more : List Lexeme) (reader whole : Reader α) : Prop :=
  ∀ {ordinal ahead}, ahead ≠ [] →
    Truncates error more (reader ⟨ordinal, ahead⟩) (whole ⟨ordinal, ahead ++ more⟩)

namespace UpTo

theorem pure (value : α) : UpTo error more (Reader.pure value) (Reader.pure value) :=
  fun nonempty => .value nonempty

theorem bind {first whole : Reader α} {second rest : α → Reader β}
    (before : UpTo error more first whole)
    (behind : ∀ value, UpTo error more (second value) (rest value)) :
    UpTo error more (Reader.bind first second) (Reader.bind whole rest) := by
  intro ordinal ahead nonempty
  have truncates :
      Truncates error more (first ⟨ordinal, ahead⟩) (whole ⟨ordinal, ahead ++ more⟩) :=
    before nonempty
  unfold Reader.bind
  generalize first ⟨ordinal, ahead⟩ = outcome at truncates
  generalize whole ⟨ordinal, ahead ++ more⟩ = outcome' at truncates
  cases truncates with
  | value nonempty => exact behind _ nonempty
  | failure => exact .failure
  | fault => exact .fault

theorem located {reader whole : Reader (Extent → α)}
    (upTo : UpTo error more reader whole) :
    UpTo error more (Reader.located (terms.upTo error) reader)
      (Reader.located terms whole) := by
  intro ordinal ahead nonempty
  have truncates :
      Truncates error more (reader ⟨ordinal, ahead⟩) (whole ⟨ordinal, ahead ++ more⟩) :=
    upTo nonempty
  unfold Reader.located
  generalize reader ⟨ordinal, ahead⟩ = outcome at truncates
  generalize whole ⟨ordinal, ahead ++ more⟩ = outcome' at truncates
  cases truncates with
  | value nonempty => exact .value nonempty
  | failure => exact .failure
  | fault => exact .fault

theorem repeatWhile {item whole : Reader α} (promises : Lexeme → Bool)
    (upTo : UpTo error more item whole) (limit : Nat) :
    UpTo error more (Reader.repeatWhile promises item limit)
      (Reader.repeatWhile promises whole limit) := by
  induction limit with
  | zero => exact pure []
  | succ limit induction =>
      intro ordinal ahead nonempty
      have current : (⟨ordinal, ahead ++ more⟩ : Place).current =
          (⟨ordinal, ahead⟩ : Place).current :=
        foremost_append nonempty more
      unfold Reader.repeatWhile
      rw [current]
      split
      · exact upTo.bind (fun value => induction.bind fun values =>
          pure (value :: values)) nonempty
      · exact pure [] nonempty

theorem advance :
    UpTo error more (Reader.advance (terms.upTo error)) (Reader.advance terms) := by
  intro ordinal ahead nonempty
  match ahead, nonempty with
  | [found], _ => exact .fault
  | found :: next :: rest, _ => exact .value (List.cons_ne_nil next rest)

theorem peek (vantage : Vantage) :
    UpTo error more (Reader.peek (terms.upTo error) vantage)
      (Reader.peek terms vantage) := by
  intro ordinal ahead nonempty
  match vantage, ahead, nonempty with
  | .last, _, _ => exact .failure
  | .current, found :: rest, _ => exact .value (List.cons_ne_nil found rest)
  | .ahead, [found], _ => exact .fault
  | .ahead, found :: next :: rest, _ => exact .value (List.cons_ne_nil found _)

theorem refuse (blamed : Vantage) (fault : GrammarFault) :
    UpTo error more (Reader.refuse (terms.upTo error) blamed fault)
      (Reader.refuse terms blamed fault : Reader α) := by
  intro ordinal ahead nonempty
  match blamed, ahead, nonempty with
  | .last, _, _ => exact .failure
  | .current, _, _ => exact .failure
  | .ahead, [found], _ => exact .fault
  | .ahead, found :: next :: rest, _ => exact .failure

theorem read {deeper whole : (part : Nonterminal) → Reader part.Tree}
    (below : ∀ part, UpTo error more (deeper part) (whole part)) (rule : Rule α) :
    UpTo error more (rule.read (terms.upTo error) deeper) (rule.read terms whole) := by
  induction rule with
  | pure value => exact pure value
  | bind first second before behind => exact before.bind behind
  | peek vantage => exact peek vantage
  | advance => exact advance
  | refuse blamed fault => exact refuse blamed fault
  | located rule induction => exact induction.located
  | repeatWhile promises item induction =>
      exact fun nonempty => induction.repeatWhile promises _ nonempty
  | nested part => exact below part

theorem nonterminal (depth : Nat) (part : Nonterminal) :
    UpTo error more (Reader.nonterminal (terms.upTo error) depth part)
      (Reader.nonterminal terms depth part) := by
  induction depth generalizing part with
  | zero => exact refuse .current (.nestedTooDeep terms.limit)
  | succ depth induction => exact read induction (Grammar.production part)

/-- Up to a fault, tokens are read as they are if more follow. -/
theorem readAt (rule : Rule α) (depth : Nat) :
    UpTo error more (rule.readAt (terms.upTo error) depth) (rule.readAt terms depth) :=
  read (nonterminal depth) rule

end UpTo

end Reader

end GraphQL
