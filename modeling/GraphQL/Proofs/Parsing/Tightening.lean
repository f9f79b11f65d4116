import GraphQL.Proofs.Parsing.Entering

/-! Constants read strictly and loosely.

The same source is read by two rules, a strict one in which constants hold no variables,
and a loose one in which they may. Until the first variable in a constant both do the
same. -/

namespace GraphQL

/-! ## Lexers on a source -/

namespace Lexer

variable {source : Source} {tokens ahead : List Token} {ending : Option LexicalError}
variable {lexer after : Lexer}

/-- The lexer goes along the tokens of the source. -/
def IsOn (source : Source) (lexer : Lexer) : Prop :=
  ∃ tokens ending ahead, source.Yields tokens ending ∧
    lexer.Moves source tokens ending ahead

theorem isOn_start (source : Source) : (start source).IsOn source := by
  obtain ⟨tokens, ending, yields⟩ := source.exists_yields
  obtain ⟨ahead, moves, _⟩ := moves_start yields
  exact ⟨tokens, ending, ahead, yields, moves⟩

namespace IsOn

theorem source_eq (isOn : lexer.IsOn source) : lexer.source = source := by
  obtain ⟨_, _, _, _, moves⟩ := isOn
  obtain ⟨_, along, _⟩ := moves.along
  exact along.source_eq

theorem getElem?_ordinal (isOn : lexer.IsOn source) :
    (significant source.scanned)[lexer.current.ordinal]? = some lexer.current ∧
      lexer.significantTokens[lexer.current.ordinal]? = some lexer.current := by
  obtain ⟨tokens, ending, ahead, yields, moves⟩ := isOn
  rw [yields.scanned_eq]
  exact ⟨(moves.ordinal yields).1,
    moves.getElem?_ordinal yields lexer.current_mem_tokens moves.isSignificant⟩

theorem lookahead (isOn : lexer.IsOn source) {answer : Except LexicalError Token}
    (looked : lexer.lookahead = (answer, after)) :
    after.IsOn source ∧ after.current = lexer.current := by
  obtain ⟨tokens, ending, ahead, yields, moves⟩ := isOn
  obtain ⟨moves', current, _⟩ := moves.lookahead yields
  rw [looked] at moves' current
  exact ⟨⟨tokens, ending, ahead, yields, moves'⟩, current⟩

theorem advance (isOn : lexer.IsOn source) (unended : lexer.current.isEndOfFile = false)
    {token : Token} (answer : lexer.advance = (.ok token, after)) :
    after.IsOn source ∧ after.current = token ∧
      token.ordinal = lexer.current.ordinal + 1 ∧
      (significant source.scanned)[lexer.current.ordinal + 1]? = some token := by
  obtain ⟨tokens, ending, ahead, yields, moves⟩ := isOn
  have advances := moves.advance yields
  have next := (moves.ordinal yields).2
  rw [answer] at advances
  rw [yields.scanned_eq]
  cases advances with
  | atEnd isEnd => exact absurd isEnd (by simp [unended])
  | moved current' moves' =>
      obtain ⟨ordinal, found⟩ := next _ rfl
      exact ⟨⟨tokens, ending, _, yields, moves'⟩, current', ordinal, found⟩

end IsOn

theorem lasts_isOn (source : Source) (count : Nat) :
    Lasts fun lexer => lexer.IsOn source ∧ count ≤ lexer.current.ordinal where
  lookahead lexer := by
    rintro ⟨isOn, le⟩
    obtain ⟨isOn', current⟩ := isOn.lookahead rfl
    exact ⟨isOn', current ▸ le⟩
  advance lexer := by
    rintro ⟨⟨tokens, ending, ahead, yields, moves⟩, le⟩
    have advances := moves.advance yields
    have next := (moves.ordinal yields).2
    generalize lexer.advance = result at advances
    cases advances with
    | atEnd _ same moves' | fault same moves' =>
        exact ⟨⟨tokens, ending, _, yields, moves'⟩, same ▸ le⟩
    | moved current moves' =>
        refine ⟨⟨tokens, ending, _, yields, moves'⟩, ?_⟩
        have ordinal := (next _ rfl).1
        rw [current]
        omega

end Lexer

theorem Rule.isOn_runAt {α : Type} {source : Source} {rule : Rule α}
    {limit depth : Nat} {value : α} {lexer after : Lexer} (isOn : lexer.IsOn source)
    (outcome : rule.runAt limit depth lexer = (.ok value, after)) :
    after.IsOn source ∧ lexer.current.ordinal ≤ after.current.ordinal := by
  have lasts := Lexer.lasts_isOn source lexer.current.ordinal
  have kept :=
    Parser.Keeps.run lasts (Parser.Keeps.nonterminal lasts limit depth) rule lexer
      ⟨isOn, Nat.le_refl _⟩
  rw [← Rule.runAt, outcome] at kept
  exact kept

/-! ## Variables in order -/

/-- Variables that were read in this order, from some of the tokens -/
structure InOrder (first after : Nat) (uses : List (Variable Extent)) : Prop where
  ascending : uses.Pairwise fun use next => use.location.first < next.location.first
  within : ∀ use ∈ uses, first ≤ use.location.first ∧ use.location.first < after

namespace InOrder

variable {first middle after : Nat} {uses more : List (Variable Extent)}

theorem earlier {first' : Nat} (order : InOrder first after uses) (le : first' ≤ first) :
    InOrder first' after uses :=
  ⟨order.ascending, fun use member =>
    ⟨Nat.le_trans le (order.within use member).1, (order.within use member).2⟩⟩

theorem later {after' : Nat} (order : InOrder first after uses) (le : after ≤ after') :
    InOrder first after' uses :=
  ⟨order.ascending, fun use member =>
    ⟨(order.within use member).1, Nat.lt_of_lt_of_le (order.within use member).2 le⟩⟩

theorem append (before : InOrder first middle uses) (behind : InOrder middle after more)
    (le : first ≤ middle) (le' : middle ≤ after) :
    InOrder first after (uses ++ more) := by
  refine ⟨List.pairwise_append.mpr
    ⟨before.ascending, behind.ascending, fun use member next member' => ?_⟩,
    List.forall_mem_append.mpr ⟨fun use member => ?_, fun use member => ?_⟩⟩
  · exact Nat.lt_of_lt_of_le (before.within use member).2 (behind.within next member').1
  · exact ⟨(before.within use member).1,
      Nat.lt_of_lt_of_le (before.within use member).2 le'⟩
  · exact ⟨Nat.le_trans le (behind.within use member).1, (behind.within use member).2⟩

end InOrder

/-! ## Two ways to read -/

/-- The lexer has come to the dollar sign of the variable. -/
structure Lexer.IsAt (source : Source) (use : Variable Extent)
    (lexer : Lexer) : Prop where
  isOn : lexer.IsOn source
  ordinal : lexer.current.ordinal = use.location.first
  sign : lexer.current.lexeme = .punctuator .dollar
  name : ∃ next, (significant source.scanned)[use.location.first + 1]? = some next ∧
    next.lexeme = .name use.name.text

/-- What comes of the strict way, given what comes of the loose one. What has been read
holds some variables in constants, by which the strict way is stopped if there are any. -/
inductive Tightened {α : Type} (source : Source)
    (holds : α → List (Variable Extent) → Prop) (lexer : Lexer) :
    (loose strict : Except Failure α × Lexer) → Prop
  | same {value : α} {after : Lexer} :
      holds value [] → Tightened source holds lexer (.ok value, after) (.ok value, after)
  | stopped {value : α} {use : Variable Extent} {others : List (Variable Extent)}
      {after there : Lexer} :
      holds value (use :: others) →
        InOrder lexer.current.ordinal after.current.ordinal (use :: others) →
      there.IsAt source use →
      Tightened source holds lexer (.ok value, after)
        (.error (.grammatical (.variableInConstant use.name.text) use.location.first),
          there)
  | failed {failure failure' : Failure} {there there' : Lexer} :
      Tightened source holds lexer (.error failure, there) (.error failure', there')

theorem Tightened.earlier {α : Type} {source : Source}
    {holds : α → List (Variable Extent) → Prop}
    {lexer lexer' : Lexer} {loose strict : Except Failure α × Lexer}
    (tightened : Tightened source holds lexer' loose strict)
    (le : lexer.current.ordinal ≤ lexer'.current.ordinal) :
    Tightened source holds lexer loose strict := by
  cases tightened with
  | same without => exact .same without
  | stopped holding order isAt => exact .stopped holding (order.earlier le) isAt
  | failed => exact .failed

/-- The strict rule reads what the loose one does, up to the first variable
in a constant. -/
def Tightens {α : Type} (source : Source) (limit depth : Nat)
    (holds : α → List (Variable Extent) → Prop) (strict loose : Rule α) : Prop :=
  ∀ lexer : Lexer, lexer.IsOn source →
    Tightened source holds lexer (loose.runAt limit depth lexer)
      (strict.runAt limit depth lexer)

/-- The variables in constants of what has been read are those that are listed. -/
def Lists {α : Type} (list : α → List (Variable Extent)) (value : α)
    (uses : List (Variable Extent)) : Prop :=
  uses = list value

namespace Tightens

open Rule

variable {α β : Type} {source : Source} {limit depth : Nat}
variable {holds : α → List (Variable Extent) → Prop}
variable {holds' : β → List (Variable Extent) → Prop}

theorem pure {value : α} (without : holds value []) :
    Tightens source limit depth holds (Pure.pure value) (Pure.pure value) :=
  fun _ _ => .same without

theorem refuse (blamed blamed' : Vantage) (fault fault' : GrammarFault) :
    Tightens source limit depth holds (Rule.refuse blamed fault)
      (Rule.refuse blamed' fault') := by
  intro lexer _
  cases loose : (Rule.refuse blamed' fault' : Rule α).runAt limit depth lexer with
  | mk outcome there =>
  cases strict : (Rule.refuse blamed fault : Rule α).runAt limit depth lexer with
  | mk outcome' there' =>
  cases outcome with
  | ok value => exact (runAt_refuse_ne_ok _ _ _ loose).elim
  | error failure =>
      cases outcome' with
      | ok value => exact (runAt_refuse_ne_ok _ _ _ strict).elim
      | error failure' => exact .failed

theorem refl (rule : Rule α) (without : ∀ value, holds value []) :
    Tightens source limit depth holds rule rule := by
  intro lexer _
  rcases rule.runAt limit depth lexer with ⟨_ | value, after⟩
  · exact .failed
  · exact .same (without value)

theorem bind {first first' : Rule α} {second second' : α → Rule β}
    (before : Tightens source limit depth holds first first')
    (behind : ∀ value uses, holds value uses →
      Tightens source limit depth (fun result more => holds' result (uses ++ more))
        (second value) (second' value)) :
    Tightens source limit depth holds' (first >>= second) (first' >>= second') := by
  intro lexer isOn
  change Tightened source holds' lexer
    (Parser.bind (first'.runAt limit depth)
      (fun value => (second' value).runAt limit depth) lexer)
    (Parser.bind (first.runAt limit depth)
      (fun value => (second value).runAt limit depth) lexer)
  have tightened := before lexer isOn
  unfold Parser.bind
  generalize first.runAt limit depth lexer = strict at tightened
  cases loose : first'.runAt limit depth lexer with
  | mk outcome middle =>
  rw [loose] at tightened
  cases tightened with
  | failed => exact .failed
  | @same value _ without =>
      obtain ⟨isOn', le⟩ := isOn_runAt isOn loose
      exact (behind value [] without middle isOn').earlier le
  | @stopped value use others _ there holding order isAt =>
      obtain ⟨isOn', le⟩ := isOn_runAt isOn loose
      have rest := behind value (use :: others) holding middle isOn'
      generalize (second value).runAt limit depth middle = strict' at rest
      cases loose' : (second' value).runAt limit depth middle with
      | mk outcome after =>
      rw [loose'] at rest
      change Tightened source holds' lexer ((second' value).runAt limit depth middle) _
      rw [loose']
      cases rest with
      | failed => exact .failed
      | same all => exact .stopped (by
        simpa using all) (order.later (isOn_runAt isOn' loose').2) isAt
      | stopped all order' _ =>
          exact .stopped all (order.append order' le (isOn_runAt isOn' loose').2) isAt

/-! ### Rules made of others -/

variable {rule rule' : Rule α} {list : α → List (Variable Extent)}
variable {list' : β → List (Variable Extent)}

theorem after (first : Rule α) {second second' : α → Rule β}
    (behind : ∀ value,
      Tightens source limit depth holds' (second value) (second' value)) :
    Tightens source limit depth holds' (first >>= second) (first >>= second') :=
  bind (refl first fun _ => (rfl : [] = [])) fun value uses without => by
    subst without
    exact behind value

theorem bindLists {second second' : α → Rule β}
    (before : Tightens source limit depth (Lists list) rule rule')
    (behind : ∀ value,
      Tightens source limit depth (fun result more => holds' result (list value ++ more))
      (second value) (second' value)) :
    Tightens source limit depth holds' (rule >>= second) (rule' >>= second') :=
  bind before fun value uses same => by
    subst same
    exact behind value

theorem map {build : α → β} (same : ∀ value, list' (build value) = list value)
    (tightens : Tightens source limit depth (Lists list) rule rule') :
    Tightens source limit depth (Lists list') (build <$> rule) (build <$> rule') :=
  tightens.bindLists fun value => pure (by rw [Lists, same, List.append_nil])

theorem listing {same : α → List (Variable Extent)}
    (tightens : Tightens source limit depth (Lists list) rule rule')
    (eq : ∀ value, list value = same value) :
    Tightens source limit depth (Lists same) rule rule' :=
  funext eq ▸ tightens

theorem located {build build' : Rule (Extent → α)}
    (tightens : Tightens source limit depth
      (fun build uses => ∀ extent, holds (build extent) uses) build build') :
    Tightens source limit depth holds (Rule.located build) (Rule.located build') := by
  intro lexer isOn
  have tightened := tightens lexer isOn
  change Tightened source holds lexer (Parser.located (build'.runAt limit depth) lexer)
    (Parser.located (build.runAt limit depth) lexer)
  unfold Parser.located Parser.bind
  generalize build'.runAt limit depth lexer = loose at tightened
  generalize build.runAt limit depth lexer = strict at tightened
  cases tightened with
  | same without => exact .same (without _)
  | stopped holding order isAt => exact .stopped (holding _) order isAt
  | failed => exact .failed

theorem optional (condition : Bool)
    (tightens : Tightens source limit depth (Lists list) rule rule') :
    Tightens source limit depth (Lists fun value => value.toList.flatMap list)
      (Rule.optional condition rule) (Rule.optional condition rule') := by
  unfold Rule.optional
  split
  · exact tightens.map fun value => by simp
  · exact pure rfl

theorem unrolled (promises : Lexeme → Bool)
    (tightens : Tightens source limit depth (Lists list) rule rule') (count : Nat) :
    Tightens source limit depth (Lists fun values => values.flatMap list)
      (Rule.unrolled promises rule count) (Rule.unrolled promises rule' count) := by
  induction count with
  | zero => exact pure rfl
  | succ count induction =>
      refine after (peek .current) fun found => ?_
      split
      · refine tightens.bindLists fun value => induction.bindLists fun values => pure ?_
        rw [Lists, List.append_nil, List.flatMap_cons]
      · exact pure rfl

theorem repeatWhile (promises : Lexeme → Bool)
    (tightens : Tightens source limit depth (Lists list) rule rule') :
    Tightens source limit depth (Lists fun values => values.flatMap list)
      (Rule.repeatWhile promises rule) (Rule.repeatWhile promises rule') := by
  intro lexer isOn
  have tightened := tightens.unrolled promises (Parser.tokenBound lexer) lexer isOn
  rw [runAt, runAt, run_unrolled, run_unrolled] at tightened
  exact tightened

theorem itemsUntil (close : Punctuator)
    (tightens : Tightens source limit depth (Lists list) rule rule') :
    Tightens source limit depth (Lists fun values => values.flatMap list)
      (Rule.itemsUntil close rule) (Rule.itemsUntil close rule') :=
  (tightens.repeatWhile _).bindLists fun values => after (mark close) fun _ =>
    pure (by rw [Lists, List.append_nil])

theorem any (opening close : Punctuator)
    (tightens : Tightens source limit depth (Lists list) rule rule') :
    Tightens source limit depth (Lists fun values => values.flatMap list)
      (Rule.any opening rule close) (Rule.any opening rule' close) :=
  after (mark opening) fun _ => tightens.itemsUntil close

theorem many (opening close : Punctuator)
    (tightens : Tightens source limit depth (Lists list) rule rule') :
    Tightens source limit depth (Lists fun values => values.flatMap list)
      (Rule.many opening rule close) (Rule.many opening rule' close) :=
  after (mark opening) fun _ => tightens.bindLists
    fun first => (tightens.itemsUntil close).bindLists fun others =>
      pure (by rw [Lists, List.append_nil, List.flatMap_cons])

theorem optionalMany (opening close : Punctuator)
    (tightens : Tightens source limit depth (Lists list) rule rule') :
    Tightens source limit depth (Lists fun values => values.flatMap list)
      (Rule.optionalMany opening rule close) (Rule.optionalMany opening rule' close) := by
  refine after (atMark opening) fun there => ?_
  split
  · exact tightens.many opening close
  · exact pure rfl

end Tightens

end GraphQL
