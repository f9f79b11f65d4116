import GraphQL.Proofs.Parsing.Finishing
import GraphQL.Proofs.Reading.Items
import GraphQL.Proofs.Parsing.Tightening

/-! Parsing makes progress and comes to an end.

Every item of a list moves the lexer on to a later token, and at the end of the source it
fails instead. So there are no more rounds of a loop than tokens left, and no source keeps
parsing from coming to an end. -/

namespace GraphQL

/-! ## Lexers further on -/

namespace Lexer

variable {source : Source} {lexer after : Lexer}

def remaining (lexer : Lexer) : Nat :=
  (significant lexer.source.scanned).length - lexer.current.ordinal

namespace IsOn

theorem ordinal_lt (isOn : lexer.IsOn source) :
    lexer.current.ordinal < (significant source.scanned).length :=
  (List.getElem?_eq_some_iff.mp isOn.getElem?_ordinal.1).1

theorem remaining_eq (isOn : lexer.IsOn source) :
    lexer.remaining = (significant source.scanned).length - lexer.current.ordinal := by
  rw [remaining, isOn.source_eq]

theorem remaining_le (isOn : lexer.IsOn source) :
    lexer.remaining ≤ Parser.tokenBound lexer := by
  obtain ⟨tokens, ending, yields⟩ := source.exists_yields
  have le := Nat.le_trans
    (List.length_filter_le Token.isSignificant tokens) yields.length_le
  rw [isOn.remaining_eq, yields.scanned_eq, Parser.tokenBound, isOn.source_eq]
  exact Nat.sub_le_sub_right le _

theorem lt_index (isOn : lexer.IsOn source) (isOn' : after.IsOn source)
    (lt : lexer.current.ordinal < after.current.ordinal) :
    lexer.current.index < after.current.index ∧ lexer.current.isEndOfFile = false := by
  obtain ⟨tokens, ending, yields⟩ := source.exists_yields
  have ascending : tokens.Pairwise fun token next => token.index < next.index ∧
      token.isEndOfFile = false := by
    refine List.pairwise_iff_getElem.mpr
      fun first second hasFirst hasSecond lt => ⟨?_, ?_⟩
    · rw [yields.index_eq (List.getElem?_eq_getElem hasFirst),
        yields.index_eq (List.getElem?_eq_getElem hasSecond)]
      exact lt
    · refine Bool.eq_false_iff.mpr fun atEnd => ?_
      rw [← List.take_append_drop first tokens, ← List.getElem_cons_drop hasFirst]
        at yields
      have missing := List.drop_eq_nil_iff.mp (yields.nothing_after atEnd).1
      omega
  have found := isOn.getElem?_ordinal.1
  have found' := isOn'.getElem?_ordinal.1
  rw [yields.scanned_eq] at found found'
  obtain ⟨hasFirst, equal⟩ := List.getElem?_eq_some_iff.mp found
  obtain ⟨hasSecond, equal'⟩ := List.getElem?_eq_some_iff.mp found'
  have behind :=
    List.pairwise_iff_getElem.mp
      (ascending.filter Token.isSignificant) _ _ hasFirst hasSecond lt
  rw [← equal, ← equal']
  exact behind

end IsOn

end Lexer

open GraphQL.Parser (Finish Rounds)

namespace Rule

open Grammar (IsItem IsRepeated)

variable {α β : Type} {source : Source} {limit depth left : Nat} {rule : Rule α}
variable {goal : Rule β}
variable {holds : α → Lexeme → Bool → Prop} {moved : Bool} {lexer there after : Lexer}
variable {value : α}

/-! ## What conditions ensure -/

/-- What is ensured holds when the rule has been read by, and a token has been
taken if that is said. -/
def Ensured (holds : α → Lexeme → Bool → Prop) (moved : Bool) (lexer : Lexer) (value : α)
    (after : Lexer) :
    Prop :=
  ∃ moved', holds value after.current.lexeme moved' ∧
    (moved' = true → moved = true ∨ lexer.current.ordinal < after.current.ordinal)

theorem Ensures.of_runAt_of_nested
    (below : ∀ part (lexer : Lexer) tree after, lexer.IsOn source →
      (nested part).runAt limit depth lexer = (.ok tree, after) →
      lexer.current.ordinal < after.current.ordinal)
    (isOn : lexer.IsOn source) (ensures : rule.Ensures holds lexer.current.lexeme moved)
    (outcome : rule.runAt limit depth lexer = (.ok value, after)) :
    Ensured holds moved lexer value after := by
  induction rule generalizing moved lexer after with
  | pure value' =>
      cases outcome
      exact ⟨moved, ensures, .inl⟩
  | @bind _ _ first second before behind =>
      obtain ⟨given, middle, outcome, rest⟩ := runAt_bind_eq_ok.mp outcome
      obtain ⟨isOn', le⟩ := isOn_runAt isOn outcome
      obtain ⟨_, le'⟩ := isOn_runAt isOn' rest
      obtain ⟨moved', ensures', taken⟩ := before isOn ensures outcome
      obtain ⟨moved'', holds', taken'⟩ := behind given isOn' ensures' rest
      refine ⟨moved'', holds', fun isMoved => ?_⟩
      rcases taken' isMoved with isMoved | lt
      · exact (taken isMoved).imp_right fun lt => Nat.lt_of_lt_of_le lt le'
      · exact .inr (Nat.lt_of_le_of_lt le lt)
  | peek vantage =>
      cases vantage with
      | current =>
          cases outcome
          exact ⟨moved, ensures, .inl⟩
      | last =>
          cases outcome
          exact ⟨moved, ensures _, .inl⟩
      | ahead =>
          change Parser.bind (Parser.ask Lexer.lookahead)
            (fun token => Parser.pure token.lexeme) lexer = _ at outcome
          unfold Parser.bind Parser.ask at outcome
          cases looked : lexer.lookahead with
          | mk answer after' =>
          rw [looked] at outcome
          cases answer <;> cases outcome
          obtain ⟨_, current⟩ := isOn.lookahead looked
          exact ⟨moved, current ▸ ensures _, .inl⟩
  | advance =>
      obtain ⟨token, answer⟩ := runAt_advance_eq_ok outcome
      have unended : lexer.current.isEndOfFile = false := by
        refine Bool.eq_false_iff.mpr fun atEnd => ensures.1 (lexeme_of_isEndOfFile atEnd)
      obtain ⟨_, current, ordinal, _⟩ := isOn.advance unended answer
      refine ⟨true, ensures.2 _, fun _ => .inr ?_⟩
      rw [current, ordinal]
      exact Nat.lt_succ_self _
  | refuse blamed fault => exact (runAt_refuse_ne_ok _ _ _ outcome).elim
  | located rule induction =>
      obtain ⟨build, inside, rfl⟩ := runAt_located_eq_ok.mp outcome
      obtain ⟨moved', ensured, taken⟩ := induction isOn ensures inside
      exact ⟨moved', ensured _, taken⟩
  | repeatWhile promises item _ => exact ⟨moved, ensures.2 _ _ _ id, .inl⟩
  | nested part =>
      exact ⟨true, ensures _ _, fun _ => .inr (below part lexer value after isOn outcome)⟩

theorem nested_moves (part : Nonterminal) {tree : part.Tree} (isOn : lexer.IsOn source)
    (outcome : (nested part).runAt limit depth lexer = (.ok tree, after)) :
    lexer.current.ordinal < after.current.ordinal := by
  induction depth generalizing part lexer after with
  | zero => cases outcome
  | succ depth induction =>
      have ensures := Takes.moved (Grammar.production_takes part lexer.current.lexeme)
      obtain ⟨_, moved, taken⟩ :=
        ensures.of_runAt_of_nested
          (fun part _ _ _ isOn => induction part isOn) isOn outcome
      exact (taken moved).resolve_left nofun

theorem Ensures.of_runAt (ensures : rule.Ensures holds lexer.current.lexeme moved)
    (isOn : lexer.IsOn source)
    (outcome : rule.runAt limit depth lexer = (.ok value, after)) :
    Ensured holds moved lexer value after :=
  ensures.of_runAt_of_nested (fun part _ _ _ isOn => nested_moves part isOn) isOn outcome

theorem Takes.lt (takes : ∀ found, rule.Takes found) (isOn : lexer.IsOn source)
    (outcome : rule.runAt limit depth lexer = (.ok value, after)) :
    lexer.current.ordinal < after.current.ordinal := by
  obtain ⟨_, moved, taken⟩ :=
    (Takes.moved (takes lexer.current.lexeme)).of_runAt isOn outcome
  exact (taken moved).resolve_left nofun

theorem MayTake.unrolled (promises : Lexeme → Bool) (isRepeated : IsRepeated rule)
    (count : Nat) :
    (unrolled promises rule count).MayTake := by
  induction count with
  | zero => exact .pure []
  | succ count induction =>
      exact .bind (.peek .current) fun _ => .ite
        (.bind (Takes.mayTake isRepeated.takes) fun _ => .bind induction fun _ =>
          .pure _) (.pure [])

/-- Wherever reading by the rule comes to, something is ensured there. -/
theorem Enters.ensures (enters : Enters limit goal left there depth rule lexer)
    (isOn : lexer.IsOn source) (ensures : rule.Ensures holds lexer.current.lexeme moved) :
    there.IsOn source ∧ ∃ holds' moved',
      goal.Ensures holds' there.current.lexeme moved' := by
  induction enters generalizing moved with
  | here => exact ⟨isOn, holds, moved, ensures⟩
  | first _ induction => exact induction isOn ensures
  | @second _ _ depth first second value lexer middle run _ induction =>
      have before :
          first.Ensures (fun value =>
            (second value).Ensures holds) lexer.current.lexeme moved := ensures
      obtain ⟨moved', behind, _⟩ := before.of_runAt isOn run
      exact induction (isOn_runAt isOn run).1 behind
  | located _ induction => exact induction isOn ensures
  | repeatWhile _ induction =>
      exact induction isOn (MayTake.ensures (.unrolled _ ensures.1 _) _)
  | nested _ induction =>
      exact induction isOn (Takes.ensures (Grammar.production_takes _ _))

theorem Enters.unended (enters : Enters limit advance left there depth rule lexer)
    (isOn : lexer.IsOn source)
    (ensures : rule.Ensures holds lexer.current.lexeme moved) :
    there.current.isEndOfFile = false := by
  obtain ⟨_, _, _, more, _⟩ := enters.ensures isOn ensures
  exact Bool.eq_false_iff.mpr fun atEnd => more (lexeme_of_isEndOfFile atEnd)

/-! ## Loops -/

/-- There are no more rounds than tokens left, whatever bound is set beyond that. -/
theorem exists_rounds (isRepeated : IsRepeated rule) (promises : Lexeme → Bool)
    {item : Finish α}
    (reads : ∀ lexer : Lexer, lexer.IsOn source →
      item lexer (rule.runAt limit depth lexer))
    (isOn : lexer.IsOn source) {bound : Nat} (enough : lexer.remaining ≤ bound) :
    ∃ count ≤ lexer.remaining,
      Rounds promises item count lexer
        (Parser.repeatWhile promises (rule.runAt limit depth) bound lexer) := by
  have remaining_eq := isOn.remaining_eq
  have ordinal_lt := isOn.ordinal_lt
  induction bound generalizing lexer with
  | zero => omega
  | succ bound induction =>
      have read := reads lexer isOn
      unfold Parser.repeatWhile
      split
      next promised =>
        unfold Parser.bind
        cases outcome : rule.runAt limit depth lexer with
        | mk answer middle =>
        rw [outcome] at read
        cases answer with
        | error failure => exact ⟨1, by omega, .failed promised read⟩
        | ok value =>
            have isOn' := (isOn_runAt isOn outcome).1
            have lt := Takes.lt isRepeated.takes isOn outcome
            have remaining_eq' := isOn'.remaining_eq
            obtain ⟨count, le, rounds⟩ :=
              induction isOn' (by omega) remaining_eq' isOn'.ordinal_lt
            refine ⟨count + 1, by omega, ?_⟩
            have rounds := Rounds.more promised read rounds
            dsimp only
            generalize Parser.repeatWhile promises (rule.runAt limit depth) bound middle =
              rest at rounds
            obtain ⟨_ | values, after⟩ := rest <;> exact rounds
      next unpromised =>
        exact ⟨0, Nat.zero_le _, .done (Bool.eq_false_iff.mpr unpromised)⟩

theorem FinishesAt.bind {first : Rule α} {second : α → Rule β}
    (before : first.FinishesAt limit depth lexer (first.runAt limit depth lexer))
    (behind : ∀ value after, first.runAt limit depth lexer = (.ok value, after) →
      (second value).FinishesAt limit depth after
        ((second value).runAt limit depth after)) :
    (first >>= second).FinishesAt limit depth lexer
      ((first >>= second).runAt limit depth lexer) := by
  change Finish.bind (first.FinishesAt limit depth)
    (fun value => (second value).FinishesAt limit depth) lexer
    (Parser.bind (first.runAt limit depth)
      (fun value => (second value).runAt limit depth) lexer)
  unfold Parser.bind
  cases outcome : first.runAt limit depth lexer with
  | mk answer middle =>
  rw [outcome] at before
  refine ⟨answer, middle, before, ?_⟩
  cases answer with
  | ok value => exact behind value middle outcome
  | error failure => rfl

theorem FinishesAt.located {rule : Rule (Extent → α)}
    (inside : rule.FinishesAt limit depth lexer (rule.runAt limit depth lexer)) :
    (located rule).FinishesAt limit depth lexer
      ((located rule).runAt limit depth lexer) := by
  change Finish.located (rule.FinishesAt limit depth) lexer
    (Parser.located (rule.runAt limit depth) lexer)
  unfold Parser.located Parser.bind
  cases outcome : rule.runAt limit depth lexer with
  | mk answer after =>
  rw [outcome] at inside
  refine ⟨answer, after, inside, ?_⟩
  cases answer <;> rfl

/-- Where something is ensured, reading finishes with what a parser gives. -/
theorem Ensures.finishes_of_nested
    (below : ∀ part (lexer : Lexer), lexer.IsOn source →
      (nested part).FinishesAt limit depth lexer ((nested part).runAt limit depth lexer))
    (isOn : lexer.IsOn source) (ensures : rule.Ensures holds lexer.current.lexeme moved) :
    rule.FinishesAt limit depth lexer (rule.runAt limit depth lexer) := by
  induction rule generalizing moved lexer with
  | pure | peek | advance | refuse => rfl
  | bind first second before behind =>
      refine .bind (before isOn ensures) fun value after outcome => ?_
      have ensures' :
          first.Ensures (fun value =>
            (second value).Ensures holds) lexer.current.lexeme moved := ensures
      obtain ⟨_, ensures', _⟩ := ensures'.of_runAt isOn outcome
      exact behind value (isOn_runAt isOn outcome).1 ensures'
  | located rule induction => exact .located (induction isOn ensures)
  | repeatWhile promises item induction =>
      have reads : ∀ lexer : Lexer, lexer.IsOn source →
          item.FinishesAt limit depth lexer (item.runAt limit depth lexer) :=
            fun lexer isOn =>
        induction isOn (Takes.ensures (ensures.1.takes lexer.current.lexeme))
      obtain ⟨count, _, rounds⟩ :=
        exists_rounds ensures.1 promises reads isOn isOn.remaining_le
      exact ⟨count, rounds⟩
  | nested part => exact below part lexer isOn

theorem nested_finishes (part : Nonterminal) (isOn : lexer.IsOn source) :
    (nested part).FinishesAt limit depth lexer
      ((nested part).runAt limit depth lexer) := by
  induction depth generalizing part lexer with
  | zero => rfl
  | succ depth induction =>
      have ensures := Takes.ensures (Grammar.production_takes part lexer.current.lexeme)
      have finishes : (Grammar.production part).FinishesAt limit depth lexer _ :=
        ensures.finishes_of_nested (fun part _ isOn => induction part isOn) isOn
      exact finishes

theorem Ensures.finishes (ensures : rule.Ensures holds lexer.current.lexeme moved)
    (isOn : lexer.IsOn source) :
    rule.FinishesAt limit depth lexer (rule.runAt limit depth lexer) :=
  ensures.finishes_of_nested (fun part _ isOn => nested_finishes part isOn) isOn

/-! ## The end of a source -/

/-- Rules that take the end as the last thing of all, and nothing but that
without a condition -/
inductive Closes : {α : Type} → Rule α → Prop
  | last {α : Type} (value : α) : Closes (.bind (expect .endOfFile) fun _ => .pure value)
  | bind {α β : Type} {first : Rule α} {second : α → Rule β} :
      first.MayTake → (∀ value, Closes (second value)) → Closes (.bind first second)
  | located {α : Type} {rule : Rule (Extent → α)} : Closes rule → Closes (.located rule)

theorem closes_document (constness : Constness) : Closes (Grammar.document constness) :=
  .located (.bind (Takes.mayTake (.expect nofun))
    fun _ => .bind (Takes.mayTake (.definition constness)) fun _ =>
      .bind (.repeatWhile _ (.item (.definition constness))) fun _ => .last _)

theorem closes_alone (takes : ∀ found, rule.Takes found) : Closes (Grammar.alone rule) :=
  .bind (Takes.mayTake (.expect nofun)) fun _ =>
    .bind (Takes.mayTake takes) fun value => .last value

def IsStep : {α : Type} → Rule α → Prop
  | _, .pure _ | _, .peek _ | _, .advance | _, .refuse _ _ => True
  | _, _ => False

theorem Enters.of_isStep (enters : Enters limit goal left there depth rule lexer)
    (isStep : rule.IsStep) :
    there = lexer ∧ goal.IsStep := by
  cases enters with
  | here => exact ⟨rfl, isStep⟩
  | first | second | located | repeatWhile | nested => exact isStep.elim

theorem Enters.of_bind {γ : Type} {first : Rule α} {second : α → Rule γ}
    (enters : Enters limit goal left there depth (first >>= second) lexer)
    (inside : ∀ {δ : Type} (first : Rule δ) (second : δ → Rule β), goal ≠
      .bind first second) :
    Enters limit goal left there depth first lexer ∨
      ∃ value middle, first.runAt limit depth lexer = (.ok value, middle) ∧
        Enters limit goal left there depth (second value) middle := by
  have enters : Enters limit goal left there depth (.bind first second) lexer := enters
  cases enters with
  | here => exact (inside _ _ rfl).elim
  | first enters => exact .inl enters
  | second outcome enters => exact .inr ⟨_, _, outcome, enters⟩

theorem Enters.of_expect {kind : TokenKind}
    (enters : Enters limit goal left there depth (expect kind) lexer)
    (inside : ∀ {δ : Type} (first : Rule δ) (second : δ → Rule β), goal ≠
      .bind first second) :
    there = lexer ∧ goal.IsStep := by
  rcases enters.of_bind inside with enters | ⟨found, middle, outcome, enters⟩
  · exact enters.of_isStep trivial
  · cases outcome
    refine enters.of_isStep ?_
    split <;> trivial

namespace Closes

theorem finishes (closes : Closes rule) (isOn : lexer.IsOn source) :
    rule.FinishesAt limit depth lexer (rule.runAt limit depth lexer) := by
  induction closes generalizing lexer with
  | last value =>
      refine .bind (.bind rfl fun found middle _ => ?_) fun _ _ _ => rfl
      split <;> rfl
  | bind mayTake _ induction =>
      have ensures := mayTake.ensures lexer.current.lexeme
      exact .bind (ensures.finishes isOn) fun value middle outcome =>
        induction value (isOn_runAt isOn outcome).1
  | located _ induction => exact .located (induction isOn)

theorem ends (closes : Closes rule) (isOn : lexer.IsOn source)
    (enters : Enters limit advance left there depth rule lexer)
    (atEnd : there.current.isEndOfFile = true) :
    ∃ value, rule.runAt limit depth lexer = (.ok value, there.advance.2) := by
  induction closes generalizing lexer with
  | last value =>
      rcases enters.of_bind (fun _ _ => nofun) with enters | ⟨_, _, _, enters⟩
      · obtain ⟨rfl, _⟩ := enters.of_expect fun _ _ => nofun
        have fits : there.current.lexeme.kind = .endOfFile := by
          rw [lexeme_of_isEndOfFile atEnd]; rfl
        have taken :
            (expect .endOfFile).runAt limit depth there = (.ok (), there.advance.2) := by
          change Rule.runAt (if there.current.lexeme.kind = .endOfFile then advance
            else _) limit depth there = _
          rw [if_pos fits]
          change Parser.bind (Parser.ask Lexer.advance) _ there = _
          simp only [Parser.bind, Parser.ask, Lexer.advance, Lexer.lookahead,
            atEnd, if_true]
          rfl
        exact ⟨value, runAt_bind_eq_ok.mpr ⟨(), _, taken, rfl⟩⟩
      · cases enters
  | @bind _ _ first second mayTake _ induction =>
      have ensures := mayTake.ensures lexer.current.lexeme
      cases enters with
      | first enters => simp [enters.unended isOn ensures] at atEnd
      | second outcome enters =>
          obtain ⟨value, read⟩ := induction _ (isOn_runAt isOn outcome).1 enters
          exact ⟨value, runAt_bind_eq_ok.mpr ⟨_, _, outcome, read⟩⟩
  | located _ induction =>
      cases enters with
      | located enters =>
          obtain ⟨build, read⟩ := induction isOn enters
          exact ⟨_, runAt_located_eq_ok.mpr ⟨build, read, rfl⟩⟩

theorem isRepeated (closes : Closes rule) {promises : Lexeme → Bool}
    (isOn : lexer.IsOn source)
    (enters : Enters limit (.repeatWhile promises goal) left there depth rule lexer) :
    there.IsOn source ∧ IsRepeated goal := by
  induction closes generalizing lexer with
  | last value =>
      rcases enters.of_bind (fun _ _ => nofun) with enters | ⟨_, _, _, enters⟩
      · exact (enters.of_expect fun _ _ => nofun).2.elim
      · exact (enters.of_isStep trivial).2.elim
  | bind mayTake _ induction =>
      have ensures := mayTake.ensures lexer.current.lexeme
      cases enters with
      | first enters =>
          obtain ⟨isOn', _, _, isRepeated, _⟩ := enters.ensures isOn ensures
          exact ⟨isOn', isRepeated⟩
      | second outcome enters => exact induction _ (isOn_runAt isOn outcome).1 enters
  | located _ induction =>
      cases enters with
      | located enters => exact induction isOn enters

end Closes

/-! ## Parsing -/

/-- What is read from where a lexer stands moves it on to a later token, and
never past the end. -/
structure Progresses (limit depth : Nat) (rule : Rule α) (lexer : Lexer) : Prop where
  moves : ∀ value after, rule.runAt limit depth lexer = (.ok value, after) →
    lexer.current.ordinal < after.current.ordinal ∧
    lexer.current.index < after.current.index
  fails : lexer.current.isEndOfFile = true →
    ∃ failure after, rule.runAt limit depth lexer = (.error failure, after)
  spares : ∀ left there, Enters limit advance left there depth rule lexer →
    there.current.isEndOfFile = false

theorem Takes.progresses (takes : ∀ found, rule.Takes found) (isOn : lexer.IsOn source) :
    Progresses limit depth rule lexer where
  moves value after outcome := by
    have lt := Takes.lt takes isOn outcome
    exact ⟨lt, (isOn.lt_index (isOn_runAt isOn outcome).1 lt).1⟩
  fails atEnd := by
    cases outcome : rule.runAt limit depth lexer with
    | mk answer after =>
    cases answer with
    | error failure => exact ⟨failure, after, rfl⟩
    | ok value =>
        have unended :=
          (isOn.lt_index (isOn_runAt isOn outcome).1 (Takes.lt takes isOn outcome)).2
        simp [unended] at atEnd
  spares left there enters :=
    enters.unended isOn (Takes.ensures (takes lexer.current.lexeme))

/-- Parsing comes to an end with an answer. -/
structure Terminates {Tree : Type → Type} (rule : Rule (Tree Extent))
    (map : (Extent → ParseOptions.Note) → Tree Extent → Tree ParseOptions.Note)
    (source : Source)
    (options : ParseOptions) (answer : Except Diagnostic (Tree ParseOptions.Note)) :
    Prop where
  /-- Whatever is repeated, there are no more rounds than tokens left. -/
  loops : ∀ {β : Type} (promises : Lexeme →
    Bool) (item : Rule β) (left : Nat) (there : Lexer),
    Enters options.maxNestingDepth
      (.repeatWhile promises item) left there options.maxNestingDepth rule
      (.start source) →
    IsRepeated item ∧ ∃ count ≤ there.remaining,
      Rounds promises (item.FinishesAt options.maxNestingDepth left) count there
        ((repeatWhile promises item).runAt options.maxNestingDepth left there)
  /-- The end is taken only when everything in front of it has been read. -/
  ends : ∀ left there,
    Enters options.maxNestingDepth advance left there options.maxNestingDepth rule
      (.start source) → there.current.isEndOfFile = true →
    ∃ tree, rule.runAt options.maxNestingDepth options.maxNestingDepth (.start source) =
      (.ok tree, there.advance.2)
  /-- Without any bound on the loops, the answer is what reading finishes with,
  and nothing else is. -/
  finishes : ∃ outcome after,
    (∀ result, rule.FinishesAt options.maxNestingDepth options.maxNestingDepth
      (.start source) result ↔
      result = (outcome, after)) ∧
    answer = (outcome.map (map (options.note after.significantTokens.toArray))).mapError
      (Failure.diagnostic after.source options after.significantTokens.toArray)

theorem Closes.terminates {Tree : Type → Type} {rule : Rule (Tree Extent)}
    {map : (Extent → ParseOptions.Note) → Tree Extent → Tree ParseOptions.Note}
    (closes : Closes rule) (source : Source) (options : ParseOptions) :
    Terminates rule map source options (readBy rule map options (.start source)).1 where
  loops promises item left there enters := by
    obtain ⟨isOn, isRepeated⟩ := closes.isRepeated (Lexer.isOn_start source) enters
    refine ⟨isRepeated,
      exists_rounds isRepeated promises (fun lexer isOn => ?_) isOn isOn.remaining_le⟩
    exact (Takes.ensures (isRepeated.takes lexer.current.lexeme)).finishes isOn
  ends left there enters atEnd := closes.ends (Lexer.isOn_start source) enters atEnd
  finishes := by
    have finishes : rule.FinishesAt options.maxNestingDepth options.maxNestingDepth
        (.start source) _ :=
      closes.finishes (Lexer.isOn_start source)
    cases read : rule.runAt options.maxNestingDepth options.maxNestingDepth
      (.start source) with
    | mk outcome after =>
    rw [read] at finishes
    refine ⟨outcome, after, fun result =>
      ⟨fun finishes' => ?_, fun same => same ▸ finishes⟩, ?_⟩
    · exact isSingle_finishesAt rule _ _ _ _ _ finishes finishes'
    · exact readBy_eq map options read

end Rule

open Rule (Progresses Terminates)

/-- Whatever the source, every item of a list takes a token, and so does every part that
may lie deeper. None takes the end, which an item fails at, and so all loops and all of
parsing come to an end. -/
theorem parsing_progresses (source : Source) (options : ParseOptions) :
    (∀ {α : Type} {item : Rule α}, Grammar.IsItem item →
      ∀ (depth : Nat) (lexer : Lexer), lexer.IsOn source →
      Progresses options.maxNestingDepth depth item lexer) ∧
    (∀ (part : Nonterminal) (depth : Nat) (lexer : Lexer), lexer.IsOn source →
      Progresses options.maxNestingDepth depth (Grammar.production part) lexer) ∧
    Terminates Grammar.document Document.map source options (parse source options) ∧
    Terminates Grammar.valueAlone Value.map source options (parseValue source options) ∧
    Terminates Grammar.typeAlone TypeReference.map source options
      (parseType source options) :=
  ⟨fun isItem _ _ isOn => Rule.Takes.progresses isItem.takes isOn,
    fun part _ _ isOn => Rule.Takes.progresses (Grammar.production_takes part) isOn,
    (Rule.closes_document .constant).terminates source options,
    (Rule.closes_alone (.value .variable)).terminates source options,
    (Rule.closes_alone .typeReference).terminates source options⟩

end GraphQL
