import GraphQL.Parser
import GraphQL.Proofs.Derivation.Basic

/-! Reading by rules from a list of tokens.

A parser moves a lexer, which reads characters as it goes. Here the same rules are
read by from a plain list of what the tokens say, so that what the grammar does
can be studied without characters and positions. -/

namespace GraphQL

variable {α β : Type}

def extentBetween (first after : Nat) : Extent := ⟨first, after - 1⟩

/-- What reading depends on besides the tokens. -/
structure Terms where
  /-- The extent of what lies between two places. -/
  extentOf : Nat → Nat → Extent
  /-- How many levels the faults on nesting give as the limit. -/
  limit : Nat
  /-- No more items than that are read from the beginning of the source. -/
  bound : Nat
  /-- The fault that follows the last token, if the source has one. -/
  ending : Option LexicalError

/-- A way to read something from a place. No token follows the last one: if no
fault is known that explains it, the failure is `none`. -/
abbrev Reader (α : Type) := Place → Except (Option Failure) (α × Place)

namespace Reader

def pure (value : α) : Reader α :=
  fun place => .ok (value, place)

def bind (first : Reader α) (second : α → Reader β) : Reader β :=
  fun place =>
    match first place with
    | .ok (value, after) => second value after
    | .error failure => .error failure

def advance (terms : Terms) : Reader Unit :=
  fun place =>
    match place.ahead with
    | _ :: next :: rest => .ok ((), ⟨place.ordinal + 1, next :: rest⟩)
    | _ => .error (terms.ending.map .lexical)

/-- A token in sight and its number. Of the last token, only the number is known. -/
def look (terms : Terms) : Vantage → Place → Except (Option Failure) (Lexeme × Nat)
  | .last, place => .ok (.startOfFile, place.ordinal - 1)
  | .current, place => .ok (place.current, place.ordinal)
  | .ahead, place =>
      match place.ahead, terms.ending with
      | _ :: next :: _, _ => .ok (next, place.ordinal + 1)
      | _, some error => .error (some (.lexical error))
      | _, none => .ok (place.current, place.ordinal)

def peek (terms : Terms) : Vantage → Reader Lexeme
  | .last => fun _ => .error none
  | vantage =>
      fun place => (look terms vantage place).map fun (lexeme, _) => (lexeme, place)

def refuse (terms : Terms) (blamed : Vantage) (fault : GrammarFault) : Reader α :=
  fun place =>
    match look terms blamed place with
    | .ok (_, ordinal) => .error (some (.grammatical fault ordinal))
    | .error failure => .error failure

def located (terms : Terms) (reader : Reader (Extent → α)) : Reader α :=
  fun place =>
    match reader place with
    | .ok (build, after) =>
        .ok (build (terms.extentOf place.ordinal after.ordinal), after)
    | .error failure => .error failure

def repeatWhile (promises : Lexeme → Bool) (item : Reader α) :
    (limit : Nat) → Reader (List α)
  | 0 => pure []
  | limit + 1 => fun place =>
      if promises place.current then
        bind item (fun value => bind (repeatWhile promises item limit) fun values =>
          pure (value :: values)) place
      else pure [] place

theorem bind_congr {first : Reader α} {second other : α → Reader β} {place : Place}
    (same : ∀ given middle, first place = .ok (given, middle) →
      second given middle = other given middle) :
    bind first second place = bind first other place := by
  unfold bind
  cases outcome : first place with
  | error failure => rfl
  | ok result => exact same _ _ outcome

end Reader

namespace Rule

def read (terms : Terms) (deeper : (part : Nonterminal) → Reader part.Tree) {α : Type} :
    Rule α → Reader α
  | .pure value => Reader.pure value
  | .bind first second =>
      Reader.bind (first.read terms deeper) fun value => (second value).read terms deeper
  | .peek vantage => Reader.peek terms vantage
  | .advance => Reader.advance terms
  | .refuse blamed fault => Reader.refuse terms blamed fault
  | .located rule => Reader.located terms (rule.read terms deeper)
  | .repeatWhile promises item => fun place =>
      Reader.repeatWhile promises (item.read terms deeper)
        (terms.bound - place.ordinal) place
  | .nested part => deeper part

end Rule

/-- Reads a part with at most `depth` levels within one another. -/
def Reader.nonterminal (terms : Terms) :
    (depth : Nat) → (part : Nonterminal) → Reader part.Tree
  | 0, _ => refuse terms .current (.nestedTooDeep terms.limit)
  | depth + 1, part => (Grammar.production part).read terms (nonterminal terms depth)

/-- Reads by a rule with at most `depth` levels of parts within one another. -/
def Rule.readAt (terms : Terms) (depth : Nat) (rule : Rule α) : Reader α :=
  rule.read terms (Reader.nonterminal terms depth)

/-! ## Outcomes of reading -/

namespace Rule

variable {terms : Terms} {depth : Nat} {place after : Place}

@[simp] theorem readAt_pure (value : α) :
    (Pure.pure value : Rule α).readAt terms depth place = .ok (value, place) := rfl

theorem readAt_bind (first : Rule α) (second : α → Rule β) :
    (first >>= second).readAt terms depth place =
      match first.readAt terms depth place with
      | .ok (value, after) => (second value).readAt terms depth after
      | .error failure => .error failure := rfl

theorem readAt_bind_eq_ok {first : Rule α} {second : α → Rule β} {value : β} :
    (first >>= second).readAt terms depth place = .ok (value, after) ↔
      ∃ given middle, first.readAt terms depth place = .ok (given, middle) ∧
        (second given).readAt terms depth middle = .ok (value, after) := by
  rw [readAt_bind]
  cases first.readAt terms depth place with
  | error failure => simp
  | ok result =>
      obtain ⟨given, middle⟩ := result
      simp only [Except.ok.injEq, Prod.mk.injEq]
      constructor
      · intro rest
        exact ⟨given, middle, ⟨rfl, rfl⟩, rest⟩
      · rintro ⟨_, _, ⟨rfl, rfl⟩, rest⟩
        exact rest

theorem readAt_bind_eq_error {first : Rule α} {second : α → Rule β}
    {failure : Option Failure} :
    (first >>= second).readAt terms depth place = .error failure ↔
      first.readAt terms depth place = .error failure ∨
        ∃ given middle, first.readAt terms depth place = .ok (given, middle) ∧
          (second given).readAt terms depth middle = .error failure := by
  rw [readAt_bind]
  cases first.readAt terms depth place with
  | error failure => simp
  | ok result =>
      obtain ⟨given, middle⟩ := result
      simp only [Except.ok.injEq, Prod.mk.injEq, reduceCtorEq, false_or]
      constructor
      · intro rest
        exact ⟨given, middle, ⟨rfl, rfl⟩, rest⟩
      · rintro ⟨_, _, ⟨rfl, rfl⟩, rest⟩
        exact rest

theorem readAt_bind_of_ok {first : Rule α} {second : α → Rule β} {given : α}
    {middle : Place} (outcome : first.readAt terms depth place = .ok (given, middle)) :
    (first >>= second).readAt terms depth place =
      (second given).readAt terms depth middle := by
  rw [readAt_bind, outcome]

@[simp] theorem readAt_peek_current_bind (second : Lexeme → Rule β) :
    (peek .current >>= second).readAt terms depth place =
      (second place.current).readAt terms depth place := rfl

theorem readAt_map_bind {γ : Type} (build : α → β) (rule : Rule α) (second : β → Rule γ) :
    (build <$> rule >>= second).readAt terms depth place =
      (rule >>= fun value => second (build value)).readAt terms depth place := by
  change Reader.bind (Reader.bind (rule.readAt terms depth) _) _ place =
    Reader.bind (rule.readAt terms depth) _ place
  unfold Reader.bind
  cases rule.readAt terms depth place <;> rfl

theorem readAt_bind_unit (rule : Rule Unit) :
    (do rule; return ()).readAt terms depth place = rule.readAt terms depth place := by
  rw [readAt_bind]
  cases rule.readAt terms depth place <;> rfl

theorem readAt_located_eq_ok {rule : Rule (Extent → α)} {value : α} :
    (located rule).readAt terms depth place = .ok (value, after) ↔
      ∃ build, rule.readAt terms depth place = .ok (build, after) ∧
        value = build (terms.extentOf place.ordinal after.ordinal) := by
  change Reader.located terms (rule.readAt terms depth) place = _ ↔ _
  rw [Reader.located]
  cases rule.readAt terms depth place with
  | error failure => simp
  | ok result =>
      obtain ⟨build, middle⟩ := result
      simp only [Except.ok.injEq, Prod.mk.injEq]
      constructor
      · rintro ⟨rfl, rfl⟩
        exact ⟨build, ⟨rfl, rfl⟩, rfl⟩
      · rintro ⟨_, ⟨rfl, rfl⟩, rfl⟩
        exact ⟨rfl, rfl⟩

theorem readAt_located_eq_error {rule : Rule (Extent → α)} {failure : Option Failure} :
    (located rule).readAt terms depth place = .error failure ↔
      rule.readAt terms depth place = .error failure := by
  change Reader.located terms (rule.readAt terms depth) place = _ ↔ _
  rw [Reader.located]
  cases rule.readAt terms depth place <;> simp

theorem readAt_located_congr {rule other : Rule (Extent → α)}
    (same : rule.readAt terms depth place = other.readAt terms depth place) :
    (located rule).readAt terms depth place =
      (located other).readAt terms depth place := by
  change Reader.located terms (rule.readAt terms depth) place =
    Reader.located terms (other.readAt terms depth) place
  unfold Reader.located
  rw [same]

@[simp] theorem readAt_refuse_current (fault : GrammarFault) :
    (refuse .current fault : Rule α).readAt terms depth place =
      .error (some (.grammatical fault place.ordinal)) := rfl

theorem readAt_peek_ahead {found next : Lexeme} {rest : List Lexeme}
    (ahead : place.ahead = found :: next :: rest) :
    (peek .ahead).readAt terms depth place = .ok (next, place) := by
  change (Reader.look terms .ahead place).map _ = _
  rw [Reader.look, ahead]
  rfl

end Rule

/-! ## Reading moves ahead -/

/-- The last token ahead is the end of the source, and there are no more tokens
than `bound`. -/
def Place.Closed (bound : Nat) (place : Place) : Prop :=
  place.ahead.getLast? = some .endOfFile ∧ place.ordinal + place.ahead.length ≤ bound

namespace Place

variable {bound : Nat} {place after : Place} {covered : List Lexeme}

theorem Closed.ne_nil (closed : place.Closed bound) : place.ahead ≠ [] := by
  intro empty
  rw [Closed, empty] at closed
  cases closed.1

theorem Covers.closed (covers : place.Covers covered after) (closed : place.Closed bound)
    (more : after.ahead ≠ []) : after.Closed bound := by
  obtain ⟨last, few⟩ := closed
  rw [covers.1] at last few
  constructor
  · simpa [List.getLast?_append, more] using last
  · rw [covers.2]
    simpa [Nat.add_assoc] using few

theorem Closed.next (closed : place.Closed bound) (more : place.current ≠ .endOfFile) :
    ∃ next rest, place.ahead = place.current :: next :: rest := by
  obtain ⟨last, _⟩ := closed
  unfold Place.current foremost at *
  rcases equal : place.ahead with _ | ⟨found, _ | ⟨next, rest⟩⟩
  · simp [equal] at last
  · simp_all
  · exact ⟨next, rest, rfl⟩

end Place

/-- Reading moves ahead or not at all, and never past the last token. -/
def Reader.Moves (reader : Reader α) : Prop :=
  ∀ place value after, reader place = .ok (value, after) →
    ∃ covered, place.Covers covered after ∧ (place.ahead ≠ [] → after.ahead ≠ [])

namespace Reader

theorem Moves.bind {first : Reader α} {second : α → Reader β} (moves : first.Moves)
    (moves' : ∀ value, (second value).Moves) : (Reader.bind first second).Moves := by
  intro place value after outcome
  rw [Reader.bind] at outcome
  cases result : first place with
  | error failure =>
      rw [result] at outcome
      cases outcome
  | ok given =>
      rw [result] at outcome
      obtain ⟨before, covers, remains⟩ := moves _ _ _ result
      obtain ⟨behind, covers', remains'⟩ := moves' _ _ _ _ outcome
      exact ⟨before ++ behind, covers.trans covers', fun nonempty =>
        remains' (remains nonempty)⟩

theorem Moves.pure (value : α) : (Reader.pure value).Moves := by
  intro place value after outcome
  cases outcome
  exact ⟨[], by simp, id⟩

theorem Moves.repeatWhile {promises : Lexeme → Bool} {item : Reader α}
    (moves : item.Moves)
    (limit : Nat) : (Reader.repeatWhile promises item limit).Moves := by
  induction limit with
  | zero => exact .pure []
  | succ limit induction =>
      intro place value after outcome
      simp only [Reader.repeatWhile] at outcome
      split at outcome
      · exact moves.bind (fun _ => induction.bind fun _ => .pure _) _ _ _ outcome
      · exact Moves.pure [] _ _ _ outcome

end Reader

namespace Rule

theorem read_moves {terms : Terms} {deeper : (part : Nonterminal) → Reader part.Tree}
    (moves : ∀ part, (deeper part).Moves) (rule : Rule α) :
    (rule.read terms deeper).Moves := by
  induction rule with
  | pure value => exact .pure value
  | bind first second before behind => exact before.bind behind
  | peek vantage =>
      intro place value after outcome
      have looked :
          (Reader.look terms vantage place).map (fun (lexeme, _) => (lexeme, place)) =
          .ok (value, after) := by
        cases vantage with
        | last => cases outcome
        | current => exact outcome
        | ahead => exact outcome
      cases look : Reader.look terms vantage place with
      | error failure => simp [look, Except.map] at looked
      | ok result =>
          simp only [look, Except.map, Except.ok.injEq, Prod.mk.injEq] at looked
          exact ⟨[], by simp [looked.2], by simp [looked.2]⟩
  | advance =>
      intro place value after outcome
      simp only [Rule.read, Reader.advance] at outcome
      split at outcome
      · rename_i found next rest ahead
        cases outcome
        exact ⟨[found], ⟨by simp [ahead], rfl⟩, by simp⟩
      · cases outcome
  | refuse blamed fault =>
      intro place value after outcome
      simp only [Rule.read, Reader.refuse] at outcome
      split at outcome <;> cases outcome
  | located rule induction =>
      intro place value after outcome
      simp only [Rule.read, Reader.located] at outcome
      split at outcome
      · rename_i inside
        cases outcome
        exact induction _ _ _ inside
      · cases outcome
  | repeatWhile promises item induction =>
      intro place value after outcome
      exact induction.repeatWhile _ _ _ _ outcome
  | nested part => exact moves part

theorem nonterminal_moves (terms : Terms) (depth : Nat) (part : Nonterminal) :
    (Reader.nonterminal terms depth part).Moves := by
  induction depth generalizing part with
  | zero =>
      intro place value after outcome
      cases outcome
  | succ depth induction => exact read_moves induction _

variable {terms : Terms} {depth bound : Nat} {place after : Place} {rule : Rule α}
variable {value : α}

theorem readAt_covers (outcome : rule.readAt terms depth place = .ok (value, after)) :
    ∃ covered, place.Covers covered after := by
  obtain ⟨covered, covers, _⟩ :=
    read_moves (nonterminal_moves terms depth) rule _ _ _ outcome
  exact ⟨covered, covers⟩

theorem readAt_closed (outcome : rule.readAt terms depth place = .ok (value, after))
    (closed : place.Closed bound) : after.Closed bound := by
  obtain ⟨covered, covers, remains⟩ :=
    read_moves (nonterminal_moves terms depth) rule _ _ _ outcome
  exact covers.closed closed (remains closed.ne_nil)

theorem readAt_advance {next : Lexeme} {rest : List Lexeme}
    (ahead : place.ahead = place.current :: next :: rest) :
    advance.readAt terms depth place = .ok ((), ⟨place.ordinal + 1, next :: rest⟩) := by
  change Reader.advance terms place = _
  rw [Reader.advance, ahead]

theorem readAt_advance_covers
    (outcome : advance.readAt terms depth place = .ok ((), after)) :
    place.Covers [place.current] after := by
  change Reader.advance terms place = _ at outcome
  rw [Reader.advance] at outcome
  split at outcome
  · rename_i found next rest ahead
    cases outcome
    refine ⟨?_, rfl⟩
    rw [Place.current, ahead]
    rfl
  · cases outcome

theorem readAt_advance_of_closed (closed : place.Closed bound)
    (more : place.current ≠ .endOfFile) :
    ∃ after, advance.readAt terms depth place = .ok ((), after) ∧
      place.Covers [place.current] after ∧ after.Closed bound := by
  obtain ⟨next, rest, ahead⟩ := closed.next more
  have covers : place.Covers [place.current] ⟨place.ordinal + 1, next :: rest⟩ :=
    ⟨ahead, rfl⟩
  exact ⟨_, readAt_advance ahead, covers, covers.closed closed (by simp)⟩

theorem readAt_advance_refuse (closed : place.Closed bound)
    (more : place.current ≠ .endOfFile) (fault : GrammarFault) :
    (do advance; refuse .last fault : Rule α).readAt terms depth place =
      .error (some (.grammatical fault place.ordinal)) := by
  obtain ⟨middle, taken, covers, _⟩ := readAt_advance_of_closed closed more
  rw [readAt_bind_of_ok taken]
  change Except.error (some (Failure.grammatical fault (middle.ordinal - 1))) = _
  rw [covers.2]
  rfl

end Rule

end GraphQL
