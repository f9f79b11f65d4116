import GraphQL.Proofs.Reading.Items
import GraphQL.Proofs.Reading.Reader

/-! Repetitions come to their end by themselves.

Reading sets a bound on how often something is repeated, which follows from the size of
the source. Whatever the grammar repeats takes up a token, so a bound is never reached,
and it makes no difference how high it is. -/

namespace GraphQL

open Grammar (IsRepeated)

variable {α : Type}

namespace Rule

variable {terms : Terms} {depth bound : Nat} {place after : Place} {rule : Rule α}
variable {value : α}
variable {holds : α → Lexeme → Bool → Prop} {moved : Bool}

/-! ## Tokens are taken -/

theorem Ensures.of_readAt_of_nested
    (below : ∀ part (place : Place) tree after,
      Reader.nonterminal terms depth part place = .ok (tree, after) →
        place.ordinal < after.ordinal)
    (ensures : rule.Ensures holds place.current moved)
    (outcome : rule.readAt terms depth place = .ok (value, after)) :
    ∃ moved', holds value after.current moved' ∧
      (moved' = true → moved = true ∨ place.ordinal < after.ordinal) := by
  induction rule generalizing moved place after with
  | pure value' =>
      cases outcome
      exact ⟨moved, ensures, .inl⟩
  | bind first second before behind =>
      obtain ⟨given, middle, outcome, rest⟩ := readAt_bind_eq_ok.mp outcome
      obtain ⟨_, covers⟩ := readAt_covers outcome
      obtain ⟨_, covers'⟩ := readAt_covers rest
      obtain ⟨moved', ensures', taken⟩ := before ensures outcome
      obtain ⟨moved'', holds', taken'⟩ := behind given ensures' rest
      refine ⟨moved'', holds', fun isMoved => ?_⟩
      rcases taken' isMoved with isMoved | lt
      · exact (taken isMoved).imp_right fun lt => Nat.lt_of_lt_of_le lt covers'.le
      · exact .inr (Nat.lt_of_le_of_lt covers.le lt)
  | peek vantage =>
      cases vantage with
      | current =>
          cases outcome
          exact ⟨moved, ensures, .inl⟩
      | last => cases outcome
      | ahead =>
          change (Reader.look terms .ahead place).map (fun seen => (seen.1, place)) =
            _ at outcome
          cases seen : Reader.look terms .ahead place with
          | error failure =>
              rw [seen] at outcome
              cases outcome
          | ok found =>
              rw [seen] at outcome
              cases outcome
              exact ⟨moved, ensures _, .inl⟩
  | advance =>
      refine ⟨true, ensures.2 _, fun _ => .inr ?_⟩
      rw [(readAt_advance_covers outcome).2]
      exact Nat.lt_succ_self _
  | refuse blamed fault =>
      change Reader.refuse terms blamed fault place = _ at outcome
      unfold Reader.refuse at outcome
      split at outcome <;> cases outcome
  | located rule induction =>
      obtain ⟨build, inside, rfl⟩ := readAt_located_eq_ok.mp outcome
      obtain ⟨moved', ensured, taken⟩ := induction ensures inside
      exact ⟨moved', ensured _, taken⟩
  | repeatWhile promises item _ => exact ⟨moved, ensures.2 _ _ _ id, .inl⟩
  | nested part =>
      exact ⟨true, ensures _ _, fun _ => .inr (below part place value after outcome)⟩

theorem nonterminal_takes (part : Nonterminal) {tree : part.Tree}
    (outcome : Reader.nonterminal terms depth part place = .ok (tree, after)) :
    place.ordinal < after.ordinal := by
  induction depth generalizing part place after with
  | zero => cases outcome
  | succ depth induction =>
      have ensures := (Grammar.production_takes part place.current).moved
      obtain ⟨_, moved, taken⟩ :=
        ensures.of_readAt_of_nested (fun part _ _ _ => induction part) outcome
      exact (taken moved).resolve_left nofun

theorem Ensures.of_readAt (ensures : rule.Ensures holds place.current moved)
    (outcome : rule.readAt terms depth place = .ok (value, after)) :
    ∃ moved', holds value after.current moved' ∧
      (moved' = true → moved = true ∨ place.ordinal < after.ordinal) :=
  ensures.of_readAt_of_nested (fun part _ _ _ => nonterminal_takes part) outcome

end Rule

theorem Grammar.IsRepeated.fewer {terms : Terms} {depth : Nat} {place after : Place}
    {item : Rule α} {value : α} (isRepeated : IsRepeated item)
    (outcome : item.readAt terms depth place = .ok (value, after)) :
    after.ahead.length < place.ahead.length := by
  obtain ⟨covered, covers⟩ := Rule.readAt_covers outcome
  obtain ⟨_, moved, taken⟩ := (isRepeated.takes place.current).moved.of_readAt outcome
  have further := (taken moved).resolve_left nofun
  rw [covers.2] at further
  rw [covers.1, List.length_append]
  omega

/-! ## Bounds on repetitions -/

def Terms.withBound (terms : Terms) (bound : Nat) : Terms := { terms with bound }

namespace Rule

variable {terms : Terms} {depth bound : Nat} {place after : Place} {rule : Rule α}
variable {value : α}
variable {holds : α → Lexeme → Bool → Prop} {moved : Bool}

/-- With as many items as there are tokens left, it does not matter how many more
are allowed. -/
theorem repeatWhile_enough {promises : Lexeme → Bool} {item : Rule α}
    (isRepeated : IsRepeated item)
    {limit other : Nat} (closed : place.Closed bound)
    (enough : place.ahead.length ≤ limit) (enough' : place.ahead.length ≤ other) :
    Reader.repeatWhile promises (item.readAt terms depth) limit place =
      Reader.repeatWhile promises (item.readAt terms depth) other place := by
  induction limit generalizing other place with
  | zero =>
      exact (closed.ne_nil (List.eq_nil_of_length_eq_zero (Nat.le_zero.mp enough))).elim
  | succ limit induction =>
      cases other with
      | zero =>
          exact (closed.ne_nil
            (List.eq_nil_of_length_eq_zero (Nat.le_zero.mp enough'))).elim
      | succ other =>
          simp only [Reader.repeatWhile]
          split
          · refine Reader.bind_congr fun value after outcome => ?_
            have fewer := isRepeated.fewer outcome
            unfold Reader.bind
            rw [induction (readAt_closed outcome closed)
              (Nat.le_of_lt_succ (Nat.lt_of_lt_of_le fewer enough))
              (Nat.le_of_lt_succ (Nat.lt_of_lt_of_le fewer enough'))]
          · rfl

theorem readAt_repeatWhile {promises : Lexeme → Bool} {item : Rule α}
    (isRepeated : IsRepeated item) (closed : place.Closed terms.bound) :
    (repeatWhile promises item).readAt terms depth place =
      (peek .current >>= fun found =>
        if promises found then do return (← item) :: (← repeatWhile promises item)
        else return []).readAt terms depth place := by
  obtain ⟨limit, room⟩ : ∃ limit, terms.bound - place.ordinal = limit + 1 := by
    have := closed.2
    have := List.length_pos_iff.mpr closed.ne_nil
    exact ⟨terms.bound - place.ordinal - 1, by omega⟩
  rw [readAt_peek_current_bind]
  change Reader.repeatWhile promises (item.readAt terms depth)
    (terms.bound - place.ordinal) place = _
  rw [room]
  simp only [Reader.repeatWhile]
  split
  · refine Reader.bind_congr fun value after outcome => ?_
    have closed' := readAt_closed outcome closed
    have fewer := isRepeated.fewer outcome
    have room' := closed'.2
    have enough : after.ahead.length ≤ limit := by
      have := closed.2
      omega
    have same : Reader.repeatWhile promises (item.readAt terms depth) limit after =
        (repeatWhile promises item).readAt terms depth after :=
      repeatWhile_enough isRepeated closed' enough
        (Nat.le_sub_of_add_le (Nat.add_comm _ _ ▸ room'))
    change _ = (repeatWhile promises item >>=
      fun values => Pure.pure (value :: values)).readAt
      terms depth after
    unfold Reader.bind
    rw [same, readAt_bind]
    rfl
  · rfl

theorem repeatWhile_congr (allowed : Place → Prop) {promises : Lexeme → Bool}
    {item other : Reader α} (same : ∀ {place}, allowed place → other place = item place)
    (stays : ∀ {place value after}, allowed place → item place = .ok (value, after) →
      allowed after)
    (limit : Nat) {place : Place} (here : allowed place) :
    Reader.repeatWhile promises other limit place =
      Reader.repeatWhile promises item limit place := by
  induction limit generalizing place with
  | zero => rfl
  | succ limit induction =>
      simp only [Reader.repeatWhile]
      split
      · unfold Reader.bind
        rw [same here]
        cases outcome : item place with
        | error failure => rfl
        | ok result => simp only [induction (stays here outcome)]
      · rfl

/-- A bound that is high enough does not matter for a rule, if it does not
for what lies deeper. -/
theorem readAt_withBound_of_nonterminal
    (below : ∀ part {place : Place}, place.Closed terms.bound → place.Closed bound →
      Reader.nonterminal (terms.withBound bound) depth part place =
        Reader.nonterminal terms depth part place)
    (ensures : rule.Ensures holds place.current moved) (closed : place.Closed terms.bound)
    (closed' : place.Closed bound) :
    rule.readAt (terms.withBound bound) depth place = rule.readAt terms depth place := by
  induction rule generalizing place moved with
  | pure | peek | advance | refuse => rfl
  | nested part => exact below part closed closed'
  | bind first second before behind =>
      change Reader.bind (first.readAt (terms.withBound bound) depth) _ place =
        Reader.bind (first.readAt terms depth) _ place
      unfold Reader.bind
      rw [before ensures closed closed']
      cases outcome : first.readAt terms depth place with
      | error failure => rfl
      | ok result =>
          have ensures' :
              first.Ensures (fun given =>
                (second given).Ensures holds) place.current moved :=
            ensures
          obtain ⟨moved', ensures', _⟩ := ensures'.of_readAt outcome
          exact behind result.1 ensures' (readAt_closed outcome closed)
            (readAt_closed outcome closed')
  | located rule induction =>
      change Reader.located (terms.withBound bound)
        (rule.readAt (terms.withBound bound) depth) place =
        Reader.located terms (rule.readAt terms depth) place
      unfold Reader.located
      rw [induction ensures closed closed']
      rfl
  | repeatWhile promises item induction =>
      have isRepeated := ensures.1
      have enough : place.ahead.length ≤ terms.bound - place.ordinal :=
        Nat.le_sub_of_add_le' closed.2
      have enough' : place.ahead.length ≤ bound - place.ordinal :=
        Nat.le_sub_of_add_le' closed'.2
      have same : Reader.repeatWhile promises (item.readAt (terms.withBound bound) depth)
            (bound - place.ordinal) place =
          Reader.repeatWhile promises (item.readAt terms depth)
            (bound - place.ordinal) place :=
        repeatWhile_congr (fun place => place.Closed terms.bound ∧ place.Closed bound)
          (fun {place} closed =>
            induction (isRepeated.takes place.current).moved closed.1 closed.2)
          (fun closed outcome =>
            ⟨readAt_closed outcome closed.1, readAt_closed outcome closed.2⟩)
          _ ⟨closed, closed'⟩
      exact same.trans (repeatWhile_enough isRepeated closed enough' enough)

theorem nonterminal_withBound (part : Nonterminal) {place : Place}
    (closed : place.Closed terms.bound) (closed' : place.Closed bound) :
    Reader.nonterminal (terms.withBound bound) depth part place =
      Reader.nonterminal terms depth part place := by
  induction depth generalizing part place with
  | zero => rfl
  | succ depth induction =>
      exact readAt_withBound_of_nonterminal (fun part {_} => induction part)
        (Grammar.production_takes part place.current).moved closed closed'

theorem readAt_withBound (mayTake : rule.MayTake) (closed : place.Closed terms.bound)
    (closed' : place.Closed bound) :
    rule.readAt (terms.withBound bound) depth place = rule.readAt terms depth place :=
  readAt_withBound_of_nonterminal (fun part {_} => nonterminal_withBound part)
    (mayTake.ensures place.current) closed closed'

end Rule

end GraphQL
