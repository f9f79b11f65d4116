import GraphQL.Grammar.Document

/-! What the grammar repeats.

Wherever the grammar repeats something, it is one of a few items. Each of them takes a
token, and no rule takes the end of the source unless it is to read all of it. -/

namespace GraphQL

open Rule

/-! ## Items -/

namespace Grammar

/-- What lists of the grammar are made of -/
inductive IsItem : {α : Type} → Rule α → Prop
  | definition (constness : Constness) : IsItem (definition constness)
  | variableDefinition (constness : Constness) : IsItem (variableDefinition constness)
  | selection : IsItem selection
  | argument (constness : Constness) : IsItem (argument constness)
  | directive (constness : Constness) : IsItem (directive constness)
  | value (constness : Constness) : IsItem (value constness)
  | objectMember (constness : Constness) : IsItem (objectMember constness)
  | operationTypeDefinition : IsItem operationTypeDefinition
  | fieldDefinition (constness : Constness) : IsItem (fieldDefinition constness)
  | inputValueDefinition (constness : Constness) : IsItem (inputValueDefinition constness)
  | enumValueDefinition (constness : Constness) : IsItem (enumValueDefinition constness)
  | namedType : IsItem namedType
  | directiveLocation : IsItem directiveLocation

/-- What is repeated: items, which may have a separator in front -/
inductive IsRepeated : {α : Type} → Rule α → Prop
  | item {α : Type} {item : Rule α} : IsItem item → IsRepeated item
  | separated {α : Type} {item : Rule α} (separator : Punctuator) :
      IsItem item → IsRepeated (do mark separator; item)

end Grammar

/-! ## Conditions on rules -/

namespace Rule

/-- What is to be shown of the current token, and of whether one has been taken
before, so that something holds of what the rule gives, of the token that it comes
to, and of whether one has been taken then. On the way no token is taken that is
the end, and only items are repeated. -/
def Ensures : {α : Type} → Rule α → (holds : α → Lexeme → Bool → Prop) →
    Lexeme → Bool → Prop
  | _, .pure value, holds => holds value
  | _, .bind first second, holds =>
      first.Ensures fun value => (second value).Ensures holds
  | _, .peek .current, holds => fun found => holds found found
  | _, .peek _, holds => fun found moved => ∀ other, holds other found moved
  | _, .advance, holds => fun found _ => found ≠ .endOfFile ∧ ∀ next, holds () next true
  | _, .refuse _ _, _ => fun _ _ => True
  | _, .located rule, holds =>
      rule.Ensures fun build next moved => ∀ extent, holds (build extent) next moved
  | _, .repeatWhile _ item, holds => fun _ moved =>
      Grammar.IsRepeated item ∧ ∀ values next more, (moved = true → more = true) →
        holds values next more
  | _, .nested _, holds => fun _ _ => ∀ tree next, holds tree next true

variable {α β : Type} {first : Rule α} {second : α → Rule β} {rule : Rule α}
variable {found : Lexeme}

/-- From the current token, the rule takes one at least. -/
def Takes (found : Lexeme) (rule : Rule α) : Prop :=
  ∀ (holds : α → Lexeme → Bool → Prop) (moved : Bool),
    (∀ value next, holds value next true) →
    rule.Ensures holds found moved

def MayTake (rule : Rule α) : Prop :=
  ∀ (holds : α → Lexeme → Bool → Prop) (found : Lexeme) (moved : Bool),
    (∀ value next more, (moved = true → more = true) → holds value next more) →
    rule.Ensures holds found moved

theorem Takes.ensures (takes : rule.Takes found) :
    rule.Ensures (fun _ _ _ => True) found false :=
  takes _ false fun _ _ => trivial

theorem Takes.moved (takes : rule.Takes found) :
    rule.Ensures (fun _ _ moved => moved = true) found false :=
  takes _ false fun _ _ => rfl

theorem MayTake.ensures (mayTake : rule.MayTake) (found : Lexeme) :
    rule.Ensures (fun _ _ _ => True) found false :=
  mayTake _ found false fun _ _ _ _ => trivial

theorem Takes.mayTake (takes : ∀ found, rule.Takes found) :
    rule.MayTake := fun _ found moved all =>
      takes found _ moved fun value next => all value next true fun _ => rfl

theorem Takes.bind_left (takes : first.Takes found)
    (mayTake : ∀ value, (second value).MayTake) :
    (first >>= second).Takes found := by
  intro holds moved all
  refine takes _ moved fun value next =>
    mayTake value _ next true fun value' next' more le => ?_
  rw [le rfl]
  exact all value' next'

theorem Takes.bind_right (mayTake : first.MayTake)
    (takes : ∀ value next, (second value).Takes next) :
    (first >>= second).Takes found := fun _ moved all =>
  mayTake _ found moved fun value next more _ => takes value next _ more all

theorem Takes.peek {second : Lexeme → Rule α} (takes : (second found).Takes found) :
    (peek .current >>= second).Takes found := takes

theorem Takes.advance (more : found ≠ .endOfFile) : advance.Takes found :=
  fun _ _ all => ⟨more, all ()⟩

theorem Takes.refuse (blamed : Vantage) (fault : GrammarFault) :
    (refuse blamed fault : Rule α).Takes found :=
  fun _ _ _ => trivial

theorem Takes.located {rule : Rule (Extent → α)} (takes : rule.Takes found) :
    (located rule).Takes found :=
  fun _ moved all => takes _ moved fun build next extent => all (build extent) next

theorem Takes.nested (part : Nonterminal) : (nested part).Takes found :=
  fun _ _ all => all

theorem Takes.ite {condition : Prop} [Decidable condition] {other : Rule α}
    (takes : condition → rule.Takes found)
    (takes' : ¬ condition → other.Takes found) :
    (if condition then rule else other).Takes found := by
  split
  · exact takes ‹_›
  · exact takes' ‹_›

theorem MayTake.pure (value : α) :
    (Pure.pure value : Rule α).MayTake := fun _ found moved all =>
      all value found moved id

theorem MayTake.bind (mayTake : first.MayTake)
    (mayTake' : ∀ value, (second value).MayTake) :
    (first >>= second).MayTake := fun _ found moved all =>
  mayTake _ found moved fun value next more le => mayTake' value _ next more
    fun value' next' more' le' =>
      all value' next' more' (le' ∘ le)

theorem MayTake.peek (vantage : Vantage) : (peek vantage).MayTake := by
  intro holds found moved all
  cases vantage with
  | current => exact all _ _ _ id
  | last | ahead => exact fun other => all other _ _ id

theorem MayTake.ite {condition : Prop} [Decidable condition] {other : Rule α}
    (mayTake : rule.MayTake)
    (mayTake' : other.MayTake) : (if condition then rule else other).MayTake := by
  split
  · exact mayTake
  · exact mayTake'

theorem MayTake.repeatWhile (promises : Lexeme → Bool)
    (isRepeated : Grammar.IsRepeated rule) :
    (repeatWhile promises rule).MayTake := fun _ _ _ all => ⟨isRepeated, all⟩

/-! ### Tokens -/

theorem Takes.expect {kind : TokenKind} (more : kind ≠ .endOfFile) (found : Lexeme) :
    (expect kind).Takes found :=
  .peek (.ite (fun fits => .advance fun atEnd => more (by rw [← fits, atEnd]; rfl))
    fun _ => .refuse _ _)

theorem Takes.mark (punctuator : Punctuator) (found : Lexeme) :
    (mark punctuator).Takes found :=
  have more : TokenKind.punctuator punctuator ≠ .endOfFile := nofun
  .expect more found

theorem Takes.keyword (word : String) (found : Lexeme) : (keyword word).Takes found :=
  .peek (.ite (fun fits => .advance fun atEnd => by
    rw [atEnd] at fits; cases fits) fun _ => .refuse _ _)

theorem MayTake.takeIf {fits : Lexeme → Bool} (more : fits .endOfFile = false) :
    (takeIf fits).MayTake := by
  intro holds found moved all
  change Rule.Ensures (if fits found then _ else _) holds found moved
  split
  next isFit =>
    refine ⟨fun atEnd => ?_, fun next => all _ next _ fun _ => rfl⟩
    rw [atEnd, more] at isFit
    cases isFit
  next => exact all _ _ _ id

theorem MayTake.optionalMark (punctuator : Punctuator) :
    (optionalMark punctuator).MayTake := .takeIf rfl

theorem MayTake.optionalKeyword (word : String) :
    (optionalKeyword word).MayTake := .takeIf rfl

theorem MayTake.atMark (punctuator : Punctuator) : (atMark punctuator).MayTake :=
  .bind (.peek _) fun _ => .pure _

theorem MayTake.optional (condition : Bool) (mayTake : rule.MayTake) :
    (optional condition rule).MayTake :=
  .ite (.bind mayTake fun _ => .pure _) (.pure _)

/-! ### Lists -/

section

open Grammar (IsItem)

variable {opening closing : Punctuator}

theorem MayTake.itemsUntil (isItem : IsItem rule) : (itemsUntil closing rule).MayTake :=
  .bind (.repeatWhile _ (.item isItem)) fun _ =>
    .bind (Takes.mayTake (.mark closing)) fun _ => .pure _

theorem Takes.any (isItem : IsItem rule) (found : Lexeme) :
    (any opening rule closing).Takes found :=
  .bind_left (.mark opening found) fun _ => .itemsUntil isItem

theorem Takes.many (isItem : IsItem rule) (takes : ∀ found, rule.Takes found)
    (found : Lexeme) :
    (many opening rule closing).Takes found :=
  .bind_left (.mark opening found) fun _ => .bind (Takes.mayTake takes) fun _ =>
    .bind (.itemsUntil isItem) fun _ => .pure _

theorem MayTake.optionalMany (isItem : IsItem rule) (takes : ∀ found, rule.Takes found) :
    (optionalMany opening rule closing).MayTake :=
  .bind (.atMark opening) fun _ => .ite (Takes.mayTake (.many isItem takes)) (.pure _)

theorem MayTake.separated (separator : Punctuator) (isItem : IsItem rule)
    (takes : ∀ found, rule.Takes found) :
    (separated separator rule).MayTake :=
  .bind (.optionalMark separator) fun _ => .bind (Takes.mayTake takes) fun _ =>
    .bind (.repeatWhile _ (.separated separator isItem)) fun _ => .pure _

end

/-! ## Productions -/

section

open Grammar (IsItem)

variable (constness : Constness) (found : Lexeme)

theorem Takes.name : Grammar.name.Takes found := by
  refine .located (.peek ?_)
  split
  next => exact .bind_left (.advance nofun) fun _ => .pure _
  next => exact .refuse _ _

theorem Takes.namedType : Grammar.namedType.Takes found :=
  .located (.bind_left (.name found) fun _ => .pure _)

theorem Takes.typeReference : Grammar.typeReference.Takes found := by
  refine .located (.bind_left ?_ fun type => ?_)
  · refine .bind_right (.atMark _) fun there next => .ite (fun _ => ?_) fun _ => ?_
    · exact .located (.bind_left (.mark _ next)
        fun _ => .bind (Takes.mayTake fun _ => .nested _) fun _ =>
          .bind (Takes.mayTake (.mark _)) fun _ => .pure _)
    · exact .bind_left (.namedType next) fun _ => .pure _
  · exact .bind (.optionalMark _) fun _ => .ite (.pure _) (.pure _)

theorem Takes.variableReference : Grammar.variableReference.Takes found :=
  .located (.bind_left (.mark _ found) fun _ =>
    .bind (Takes.mayTake .name) fun _ => .pure _)

theorem Takes.stringValue : Grammar.stringValue.Takes found := by
  refine .located (.peek ?_)
  split
  next => exact .bind_left (.advance nofun) fun _ => .pure _
  next => exact .bind_left (.advance nofun) fun _ => .pure _
  next => exact .refuse _ _

theorem Takes.numberValue {fits : Bool} {value : Extent → Value Extent}
    {fault : GrammarFault}
    (more : found ≠ .endOfFile) : (Grammar.numberValue fits value fault).Takes found :=
  .located (.bind_left (.advance more) fun _ =>
    .ite (.pure _) (Takes.mayTake fun _ => .refuse _ _))

theorem Takes.value : (Grammar.value constness).Takes found := by
  refine .peek ?_
  split
  next => exact .nested _
  next => exact .nested _
  next =>
    cases constness with
    | constant =>
        refine .bind_right (.peek _) fun next here => ?_
        split <;> exact .refuse _ _
    | «variable» => exact .bind_left (.variableReference _) fun _ => .pure _
  next => exact .numberValue _ nofun
  next => exact .numberValue _ nofun
  next => exact .bind_left (.stringValue _) fun _ => .pure _
  next => exact .bind_left (.stringValue _) fun _ => .pure _
  next => exact .located (.bind_left (.advance nofun) fun _ => .pure _)
  next => exact .refuse _ _

theorem Takes.objectMember : (Grammar.objectMember constness).Takes found :=
  .located (.bind_left (.name found) fun _ => .bind (Takes.mayTake (.mark _)) fun _ =>
    .bind (Takes.mayTake (.value constness)) fun _ => .pure _)

theorem MayTake.defaultValue : (Grammar.defaultValue constness).MayTake :=
  .bind (.optionalMark _) fun _ => .optional _ (Takes.mayTake (.value constness))

theorem Takes.argument : (Grammar.argument constness).Takes found :=
  .located (.bind_left (.name found) fun _ => .bind (Takes.mayTake (.mark _)) fun _ =>
    .bind (Takes.mayTake (.value constness)) fun _ => .pure _)

theorem MayTake.arguments : (Grammar.arguments constness).MayTake :=
  .optionalMany (.argument constness) (.argument constness)

theorem Takes.directive : (Grammar.directive constness).Takes found :=
  .located (.bind_left (.mark _ found) fun _ => .bind (Takes.mayTake .name) fun _ =>
    .bind (.arguments constness) fun _ => .pure _)

theorem MayTake.directives : (Grammar.directives constness).MayTake :=
  .repeatWhile _ (.item (.directive constness))

/-! ### Operations and fragments -/

theorem Takes.selectionSet : Grammar.selectionSet.Takes found := .nested _

theorem Takes.fragmentName : Grammar.fragmentName.Takes found :=
  .bind_right (.peek _) fun _ next => .ite (fun _ => .refuse _ _) fun _ => .name next

theorem Takes.field : Grammar.field.Takes found := by
  refine .located (.bind_left (.bind_left (.name found) fun _ => ?_) fun _ => ?_)
  · exact .bind (.optionalMark _) fun _ =>
      .ite (.bind (Takes.mayTake .name) fun _ => .pure _) (.pure _)
  · exact .bind (.arguments _) fun _ => .bind (.directives _)
      fun _ => .bind (.atMark _) fun _ =>
        .bind (.optional _ (Takes.mayTake .selectionSet)) fun _ => .pure _

theorem Takes.spread : Grammar.spread.Takes found := by
  refine .located
    (.bind_left (.mark _ found) fun _ => .bind (.optionalKeyword _) fun conditional =>
      .bind (.peek _) fun _ => .ite ?_ ?_)
  · exact .bind (Takes.mayTake .fragmentName) fun _ =>
      .bind (.directives _) fun _ => .pure _
  · exact .bind (.optional _ (Takes.mayTake .namedType))
      fun _ => .bind (.directives _) fun _ =>
        .bind (Takes.mayTake .selectionSet) fun _ => .pure _

theorem Takes.selection : Grammar.selection.Takes found :=
  .bind_right (.atMark _) fun _ next => .ite (fun _ => .spread next) fun _ => .field next

theorem Takes.selections : Grammar.selections.Takes found :=
  .located (.bind_left (.many .selection .selection found) fun _ => .pure _)

theorem Takes.operationType : Grammar.operationType.Takes found := by
  refine .peek ?_
  split
  next =>
    refine .bind_left (.advance nofun) fun _ => ?_
    split
    next => exact .pure _
    next =>
      exact .ite (Takes.mayTake fun _ => .refuse _ _) (Takes.mayTake fun _ => .refuse _ _)
  next => exact .refuse _ _

theorem Takes.variableDefinition : (Grammar.variableDefinition constness).Takes found :=
  .located (.bind_left (.variableReference found)
    fun _ => .bind (Takes.mayTake (.mark _)) fun _ =>
      .bind (Takes.mayTake .typeReference)
        fun _ => .bind (.defaultValue constness) fun _ =>
      .bind (.directives constness) fun _ => .pure _)

theorem Takes.operationDefinition :
    (Grammar.operationDefinition constness).Takes found := by
  refine .located (.bind_right (.atMark _) fun _ next => .ite (fun _ => ?_) fun _ => ?_)
  · exact .bind_left (.selectionSet next) fun _ => .pure _
  · exact .bind_left (.operationType next) fun _ => .bind (.peek _) fun _ =>
      .bind (.optional _ (Takes.mayTake .name)) fun _ =>
      .bind (.optionalMany (.variableDefinition constness)
        (.variableDefinition constness)) fun _ =>
      .bind (.directives _) fun _ => .bind (Takes.mayTake .selectionSet) fun _ => .pure _

theorem Takes.fragmentDefinition : Grammar.fragmentDefinition.Takes found :=
  .located (.bind_left (.keyword _ found)
    fun _ => .bind (Takes.mayTake .fragmentName) fun _ =>
      .bind (Takes.mayTake (.keyword _))
        fun _ => .bind (Takes.mayTake .namedType) fun _ =>
      .bind (.directives _) fun _ => .bind (Takes.mayTake .selectionSet) fun _ => .pure _)

/-! ### Schemas and types -/

theorem MayTake.description : Grammar.description.MayTake :=
  .bind (.peek _) fun _ => .optional _ (Takes.mayTake .stringValue)

theorem Takes.operationTypeDefinition : Grammar.operationTypeDefinition.Takes found :=
  .located (.bind_left (.operationType found)
    fun _ => .bind (Takes.mayTake (.mark _)) fun _ =>
      .bind (Takes.mayTake .namedType) fun _ => .pure _)

theorem Takes.inputValueDefinition :
    (Grammar.inputValueDefinition constness).Takes found :=
  .located (.bind_right .description fun _ next => .bind_left (.name next) fun _ =>
    .bind (Takes.mayTake (.mark _)) fun _ => .bind (Takes.mayTake .typeReference) fun _ =>
    .bind (.defaultValue constness) fun _ =>
      .bind (.directives constness) fun _ => .pure _)

theorem MayTake.argumentDefinitions : (Grammar.argumentDefinitions constness).MayTake :=
  .optionalMany (.inputValueDefinition constness) (.inputValueDefinition constness)

theorem Takes.fieldDefinition : (Grammar.fieldDefinition constness).Takes found :=
  .located (.bind_right .description fun _ next => .bind_left (.name next) fun _ =>
    .bind (.argumentDefinitions constness)
      fun _ => .bind (Takes.mayTake (.mark _)) fun _ =>
    .bind (Takes.mayTake .typeReference) fun _ =>
      .bind (.directives constness) fun _ => .pure _)

theorem Takes.enumValueDefinition : (Grammar.enumValueDefinition constness).Takes found :=
  .located (.bind_right .description fun _ next => .bind_left (.name next) fun _ =>
    .bind (.directives constness) fun _ => .pure _)

theorem Takes.directiveLocation : Grammar.directiveLocation.Takes found := by
  refine .bind_left (.name found) fun name => ?_
  split
  next => exact .pure _
  next => exact Takes.mayTake fun _ => .refuse _ _

theorem Takes.described {α β : Type} {word : String}
    {rest : Option (StringValue Extent) → Rule (Extent → α)}
    {build : α → β} (mayTake : ∀ description, (rest description).MayTake) :
    Rule.Takes found (build <$> Rule.located do
      let description ← Grammar.description
      Rule.keyword word
      rest description) :=
  .bind_left (.located (.bind_right .description fun description next =>
    .bind_left (.keyword word next) fun _ => mayTake description)) fun _ => .pure _

theorem MayTake.interfaces : Grammar.interfaces.MayTake :=
  .bind (.optionalKeyword _) fun _ => .ite (.separated _ .namedType .namedType) (.pure _)

theorem MayTake.unionMembers : Grammar.unionMembers.MayTake :=
  .bind (.optionalMark _) fun _ => .ite (.separated _ .namedType .namedType) (.pure _)

theorem Takes.definitionOfKeyword {word : String} {rule : Rule (Definition Extent)}
    (known : Grammar.definitionOfKeyword? word constness = some rule) :
    rule.Takes found := by
  have directives := MayTake.directives constness
  have name := Takes.mayTake Takes.name
  have inputs := Takes.inputValueDefinition constness
  have fielded (word : String) (build : FieldedTypeDefinition Extent →
      Definition Extent) :
      Rule.Takes found (build <$> Grammar.fieldedTypeDefinition word constness) :=
    .described found fun _ => .bind name fun _ => .bind .interfaces
      fun _ => .bind directives fun _ =>
        .bind (.optionalMany (.fieldDefinition constness) (.fieldDefinition constness))
          fun _ => .pure _
  unfold Grammar.definitionOfKeyword? at known
  repeat' split at known
  all_goals cases known
  · exact .described found fun _ => .bind directives fun _ =>
      .bind (Takes.mayTake (.many .operationTypeDefinition .operationTypeDefinition))
        fun _ => .pure _
  · exact .described found fun _ => .bind name fun _ => .bind directives fun _ => .pure _
  · exact fielded "type" .object
  · exact fielded "interface" .interface
  · exact .described found fun _ => .bind name fun _ => .bind directives fun _ =>
      .bind .unionMembers fun _ => .pure _
  · exact .described found fun _ => .bind name fun _ => .bind directives fun _ =>
      .bind (.optionalMany (.enumValueDefinition constness)
        (.enumValueDefinition constness)) fun _ => .pure _
  · exact .described found fun _ => .bind name fun _ => .bind directives fun _ =>
      .bind (.optionalMany (.inputValueDefinition constness) inputs) fun _ => .pure _
  · exact .described found fun _ => .bind (Takes.mayTake (.mark _))
      fun _ => .bind name fun _ =>
        .bind (.argumentDefinitions constness)
          fun _ => .bind (.optionalKeyword _) fun _ =>
        .bind (Takes.mayTake (.keyword _))
          fun _ => .bind (.separated _ .directiveLocation .directiveLocation) fun _ =>
        .pure _

theorem Takes.definition : (Grammar.definition constness).Takes found := by
  have described (found : Lexeme) :
      (Grammar.describedDefinition constness).Takes found := by
    refine .bind_right (.peek _) fun next here => ?_
    split
    next =>
      split
      next known => exact .definitionOfKeyword constness here known
      next => exact .refuse _ _
    next => exact .refuse _ _
  have operation (found : Lexeme) := Takes.operationDefinition constness found
  refine .peek ?_
  split
  next => exact .bind_left (operation _) fun _ => .pure _
  next word =>
    refine .ite (fun _ => .bind_left (operation _) fun _ => .pure _) fun _ => ?_
    refine .ite (fun _ => .bind_left (.fragmentDefinition _) fun _ => .pure _) fun _ => ?_
    refine .ite (fun _ => .refuse _ _) fun _ => .ite (fun _ => .refuse _ _) fun _ => ?_
    cases known : Grammar.definitionOfKeyword? word constness with
    | some rule => exact .definitionOfKeyword constness _ known
    | none => exact .refuse _ _
  next => exact described _
  next => exact described _
  next => exact .refuse _ _

end

end Rule

namespace Grammar

theorem IsItem.takes {α : Type} {item : Rule α} (isItem : IsItem item) (found : Lexeme) :
    item.Takes found := by
  cases isItem with
  | definition constness => exact .definition constness found
  | variableDefinition constness => exact .variableDefinition constness found
  | selection => exact .selection found
  | argument constness => exact .argument constness found
  | directive constness => exact .directive constness found
  | value constness => exact .value constness found
  | objectMember constness => exact .objectMember constness found
  | operationTypeDefinition => exact .operationTypeDefinition found
  | fieldDefinition constness => exact .fieldDefinition constness found
  | inputValueDefinition constness => exact .inputValueDefinition constness found
  | enumValueDefinition constness => exact .enumValueDefinition constness found
  | namedType => exact .namedType found
  | directiveLocation => exact .directiveLocation found

theorem IsRepeated.takes {α : Type} {item : Rule α} (isRepeated : IsRepeated item)
    (found : Lexeme) :
    item.Takes found := by
  cases isRepeated with
  | item isItem => exact isItem.takes found
  | separated separator isItem =>
      exact .bind_left (.mark separator found) fun _ => Takes.mayTake isItem.takes

theorem production_takes (part : Nonterminal) (found : Lexeme) :
    (production part).Takes found := by
  cases part with
  | selectionSet => exact .selections found
  | list constness =>
      exact .located (.bind_left (.any (.value constness) found) fun _ => .pure _)
  | object constness =>
      exact .located (.bind_left (.any (.objectMember constness) found) fun _ => .pure _)
  | listElement => exact .typeReference found

end Grammar

end GraphQL
