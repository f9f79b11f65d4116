import GraphQL.Proofs.Derivation.Variation
import GraphQL.Proofs.Parsing.Faults
import GraphQL.Proofs.Syntax.Maps

/-! Asking at every node whether it is to have a location.

A parser may ask for locations node by node, instead of once for the whole tree. No rule
of the grammar looks at where its parts have been read, so the parser reads the same then,
and the trees are the same. -/

namespace GraphQL

open ParseOptions (Note)

variable {α β α' β' : Type}

/-! ## Other extents -/

namespace Parser

def locatedBy (place : Extent → Extent) (parser : Parser (Extent → α)) : Parser α :=
  fun lexer => bind parser (fun build after =>
    (.ok (build (place ⟨lexer.current.ordinal, after.last.ordinal⟩)), after)) lexer

end Parser

/-- Reads by a rule, and puts something in place of every extent. -/
def Rule.runBy (place : Extent → Extent)
    (deeper : (part : Nonterminal) → Parser part.Tree) {α : Type} : Rule α → Parser α
  | .pure value => Parser.pure value
  | .bind first second =>
      Parser.bind (first.runBy place deeper) fun value =>
        (second value).runBy place deeper
  | .peek vantage =>
      Parser.bind (Parser.look vantage) fun token => Parser.pure token.lexeme
  | .advance => Parser.bind (Parser.ask Lexer.advance) fun _ => Parser.pure ()
  | .refuse blamed fault => Parser.refuse blamed fault
  | .located rule => Parser.locatedBy place (rule.runBy place deeper)
  | .repeatWhile promises item => fun lexer =>
      Parser.repeatWhile promises (item.runBy place deeper)
        (Parser.tokenBound lexer) lexer
  | .nested part => deeper part

namespace Parser

def nonterminalBy (place : Extent → Extent) (limit : Nat) :
    (depth : Nat) → (part : Nonterminal) → Parser part.Tree
  | 0, _ => refuse .current (.nestedTooDeep limit)
  | depth + 1, part =>
      (Grammar.production part).runBy place (nonterminalBy place limit depth)

def ofRuleBy (place : Extent → Extent) (rule : Rule α) (limit : Nat) : Parser α :=
  rule.runBy place (nonterminalBy place limit limit)

/-! ## Parsers that read alike -/

/-- Two parsers come to results that are the same in some way, or to the same failure, and
leave the lexer at the same place. -/
inductive EndsAlike (same : α → α' → Prop) :
    Except Failure α × Lexer → Except Failure α' × Lexer → Prop
  | value {value value' lexer} : same value value' → EndsAlike same (.ok value, lexer)
      (.ok value', lexer)
  | failure {failure lexer} : EndsAlike same (.error failure, lexer)
      (.error failure, lexer)

def Alike (same : α → α' → Prop) (parser : Parser α) (parser' : Parser α') : Prop :=
  ∀ lexer, EndsAlike same (parser lexer) (parser' lexer)

namespace Alike

variable {same : α → α' → Prop} {same' : β → β' → Prop}

theorem pure {value : α} {value' : α'} (related : same value value') :
    Alike same (Parser.pure value) (Parser.pure value') := fun _ => .value related

theorem refl (parser : Parser α) : Alike Eq parser parser := by
  intro lexer
  rcases parser lexer with ⟨failure | value, after⟩
  · exact .failure
  · exact .value rfl

theorem bind {first : Parser α} {first' : Parser α'} {second : α → Parser β}
    {second' : α' → Parser β'} (alike : Alike same first first')
    (alike' : ∀ {value value'}, same value value' →
      Alike same' (second value) (second' value')) :
    Alike same' (Parser.bind first second) (Parser.bind first' second') := by
  intro lexer
  have ends := alike lexer
  unfold Parser.bind
  generalize first lexer = result at ends
  generalize first' lexer = result' at ends
  cases ends with
  | value related => exact alike' related _
  | failure => exact .failure

theorem refuse (blamed : Vantage) (fault : GrammarFault) :
    Alike same (Parser.refuse blamed fault) (Parser.refuse blamed fault) :=
  (refl (Parser.look blamed)).bind fun equal _ => equal ▸ .failure

theorem located {place : Extent → Extent} {parser : Parser (Extent → α)}
    {parser' : Parser (Extent → α')}
    (alike : Alike (fun build build' =>
      ∀ extent, same (build extent) (build' (place extent)))
      parser parser') : Alike same (Parser.located parser)
        (Parser.locatedBy place parser') := by
  intro lexer
  have noted : ∀ {build : Extent → α} {build' : Extent → α'},
      (∀ extent, same (build extent) (build' (place extent))) →
      Alike same (fun after =>
        (.ok (build ⟨lexer.current.ordinal, after.last.ordinal⟩), after))
        fun after =>
          (.ok (build' (place ⟨lexer.current.ordinal, after.last.ordinal⟩)), after) :=
    fun related _ => .value (related _)
  exact alike.bind noted lexer

theorem repeatWhile {promises : Lexeme → Bool} {item : Parser α} {item' : Parser α'}
    (alike : Alike same item item') (limit : Nat) :
    Alike (List.Forall₂ same) (Parser.repeatWhile promises item limit)
      (Parser.repeatWhile promises item' limit) := by
  induction limit with
  | zero => exact pure .nil
  | succ limit induction =>
      intro lexer
      simp only [Parser.repeatWhile]
      split
      · exact alike.bind (fun first => induction.bind fun others =>
          pure (.cons first others)) lexer
      · exact pure .nil lexer

theorem mono {other : α → α' → Prop} {parser : Parser α} {parser' : Parser α'}
    (alike : Alike same parser parser')
    (related : ∀ {value value'}, same value value' → other value value') :
    Alike other parser parser' := by
  intro lexer
  have ends := alike lexer
  generalize parser lexer = result at ends
  generalize parser' lexer = result' at ends
  cases ends with
  | value same => exact .value (related same)
  | failure => exact .failure

end Alike

end Parser

/-! ## Rules that do not look at extents -/

def Nonterminal.map (place : Extent → Extent) :
    (part : Nonterminal) → part.Tree → part.Tree
  | .selectionSet => SelectionSet.map place
  | .list _ | .object _ => Value.map place
  | .listElement => TypeReference.map place

namespace Rule

variable {place : Extent → Extent}

/-- With other extents the second rule reads what the first one reads. -/
def Alike (place : Extent → Extent) (same : α → α' → Prop) (rule : Rule α)
    (rule' : Rule α') : Prop :=
  ∀ deeper deeper' : (part : Nonterminal) → Parser part.Tree,
    (∀ part, (deeper part).Alike (part.map place · = ·) (deeper' part)) →
    (rule.run deeper).Alike same (rule'.runBy place deeper')

/-- With other extents the rule reads the same, but for these. -/
def Follows (place : Extent → Extent) (replace : α → α) (rule : Rule α) : Prop :=
  Alike place (replace · = ·) rule rule

namespace Alike

variable {same : β → β' → Prop} {replace : α → α} {first : Rule α} {second : α → Rule β}
variable {second' : α → Rule β'}

theorem pure {value : β} {value' : β'} (related : same value value') :
    Alike place same (Pure.pure value) (Pure.pure value') := fun _ _ _ => .pure related

theorem refuse (blamed : Vantage) (fault : GrammarFault) :
    Alike place same (refuse blamed fault) (refuse blamed fault) :=
      fun _ _ _ => .refuse blamed fault

theorem bind (follows : first.Follows place replace)
    (alike : ∀ value, Alike place same (second value) (second' (replace value))) :
    Alike place same (first >>= second) (first >>= second') := fun _ _ below =>
  (follows _ _ below).bind fun {value} _ equal => equal ▸ alike value _ _ below

theorem bind_same (follows : first.Follows place id)
    (alike : ∀ value, Alike place same (second value) (second' value)) :
    Alike place same (first >>= second) (first >>= second') := bind follows alike

theorem ite {condition : Prop} [Decidable condition] {rule other : Rule β}
    {rule' other' : Rule β'}
    (alike : Alike place same rule rule') (alike' : Alike place same other other') :
    Alike place same (if condition then rule else other)
      (if condition then rule' else other') := by
  split
  · exact alike
  · exact alike'

end Alike

namespace Follows

variable {replace : α → α} {replace' : β → β} {rule : Rule α}

theorem located {rule : Rule (Extent → α)}
    (alike : Alike place (fun build build' => ∀ extent, replace (build extent) =
      build' (place extent))
      rule rule) : (located rule).Follows place replace := fun _ _ below =>
        (alike _ _ below).located

theorem peek (vantage : Vantage) : (peek vantage).Follows place id := fun _ _ _ => .refl _

theorem advance : Rule.advance.Follows place id := fun _ _ _ => .refl _

theorem nested (part : Nonterminal) :
    (nested part).Follows place (part.map place) := fun _ _ below =>
      below part

theorem repeatWhile {promises : Lexeme → Bool} (follows : rule.Follows place replace) :
    (repeatWhile promises rule).Follows place (List.map replace) := by
  intro deeper deeper' below lexer
  refine ((follows _ _ below).repeatWhile (Parser.tokenBound lexer)).mono
    (fun each => ?_) lexer
  rwa [← List.forall₂_eq_eq_eq, List.forall₂_map_left_iff]

theorem map (build : α → β) (follows : rule.Follows place replace)
    (related : ∀ value, replace' (build value) = build (replace value)) :
    (build <$> rule).Follows place replace' :=
      Alike.bind follows fun value => .pure (related value)

theorem ite {condition : Prop} [Decidable condition] {other : Rule α}
    (follows : rule.Follows place replace) (follows' : other.Follows place replace) :
    (if condition then rule else other).Follows place replace :=
      Alike.ite follows follows'

/-! ### Tokens -/

theorem expect (kind : TokenKind) : (expect kind).Follows place id :=
  Alike.bind_same (peek _) fun _ => .ite advance (.refuse _ _)

theorem mark (punctuator : Punctuator) : (mark punctuator).Follows place id := expect _

theorem keyword (word : String) : (keyword word).Follows place id :=
  Alike.bind_same (peek _) fun _ => .ite advance (.refuse _ _)

theorem atMark (punctuator : Punctuator) : (atMark punctuator).Follows place id :=
  Alike.bind_same (peek _) fun _ => .pure rfl

theorem takeIf (fits : Lexeme → Bool) : (takeIf fits).Follows place id :=
  Alike.bind_same (peek _) fun _ =>
    .ite (.bind_same advance fun _ => .pure rfl) (.pure rfl)

theorem optionalMark (punctuator : Punctuator) :
    (optionalMark punctuator).Follows place id :=
  takeIf _

theorem optionalKeyword (word : String) :
    (optionalKeyword word).Follows place id := takeIf _

theorem optional (condition : Bool) (follows : rule.Follows place replace) :
    (optional condition rule).Follows place (Option.map replace) :=
  .ite (follows.map some fun _ => rfl) (Alike.pure rfl)

/-! ### Lists -/

section

variable {opening closing : Punctuator}

theorem itemsUntil (follows : rule.Follows place replace) :
    (itemsUntil closing rule).Follows place (List.map replace) :=
  Alike.bind follows.repeatWhile fun _ => .bind_same (mark _) fun _ => .pure rfl

theorem any (follows : rule.Follows place replace) :
    (any opening rule closing).Follows place (List.map replace) :=
  Alike.bind_same (mark _) fun _ => follows.itemsUntil

theorem many (follows : rule.Follows place replace) :
    (many opening rule closing).Follows place (List.map replace) :=
  Alike.bind_same (mark _) fun _ => .bind follows
    fun _ => .bind follows.itemsUntil fun _ =>
      .pure rfl

theorem optionalMany (follows : rule.Follows place replace) :
    (optionalMany opening rule closing).Follows place (List.map replace) :=
  Alike.bind_same (atMark _) fun _ => .ite follows.many (.pure rfl)

theorem separated (separator : Punctuator) (follows : rule.Follows place replace) :
    (separated separator rule).Follows place (List.map replace) := by
  refine Alike.bind_same (optionalMark _) fun _ => .bind follows fun _ =>
    .bind ?_ fun _ => .pure rfl
  exact .repeatWhile (Alike.bind_same (mark _) fun _ => follows)

end

/-! ## Productions -/

variable (place) (constness : Constness)

theorem name : Grammar.name.Follows place (·.map place) := by
  refine .located (.bind_same (peek _) fun found => ?_)
  split
  · exact .bind_same advance fun _ => .pure fun _ => rfl
  · exact .refuse _ _

theorem namedType : Grammar.namedType.Follows place (·.map place) :=
  .located (.bind (name place) fun _ => .pure fun _ => rfl)

theorem typeReference : Grammar.typeReference.Follows place (·.map place) := by
  have nullable : Grammar.nullableType.Follows place (·.map place) := by
    refine Alike.bind_same (atMark _) fun _ => .ite ?_ ?_
    · exact located (.bind_same (mark _) fun _ => .bind (nested .listElement) fun _ =>
        .bind_same (mark _) fun _ => .pure fun _ => rfl)
    · exact .bind (namedType place) fun _ => .pure rfl
  exact .located (.bind nullable fun _ => .bind_same (optionalMark _) fun _ =>
    .ite (.pure fun _ => rfl) (.pure fun _ => rfl))

theorem variableReference : Grammar.variableReference.Follows place (·.map place) :=
  .located (.bind_same (mark _) fun _ => .bind (name place) fun _ => .pure fun _ => rfl)

theorem stringValue : Grammar.stringValue.Follows place (·.map place) := by
  refine .located (.bind_same (peek _) fun found => ?_)
  split
  · exact .bind_same advance fun _ => .pure fun _ => rfl
  · exact .bind_same advance fun _ => .pure fun _ => rfl
  · exact .refuse _ _

theorem numberValue {fits : Bool} {build : Extent → Value Extent} {fault : GrammarFault}
    (related : ∀ extent, (build extent).map place = build (place extent)) :
    (Grammar.numberValue fits build fault).Follows place (·.map place) :=
  .located (.bind_same advance fun _ => .ite (.pure related) (.refuse _ _))

theorem value : (Grammar.value constness).Follows place (·.map place) := by
  refine Alike.bind_same (peek _) fun found => ?_
  split
  · exact nested (.list constness)
  · exact nested (.object constness)
  · cases constness with
    | constant =>
        refine .bind_same (peek _) fun next => ?_
        split <;> exact .refuse _ _
    | «variable» => exact (variableReference place).map Value.variable fun _ => rfl
  · exact numberValue place fun _ => rfl
  · exact numberValue place fun _ => rfl
  · exact (stringValue place).map Value.string fun _ => rfl
  · exact (stringValue place).map Value.string fun _ => rfl
  · refine located (.bind_same advance fun _ => .pure fun _ => ?_)
    unfold Grammar.valueOfName
    repeat' split
    all_goals rfl
  · exact .refuse _ _

theorem objectMember : (Grammar.objectMember constness).Follows place (·.map place) :=
  .located (.bind (name place) fun _ => .bind_same (mark _) fun _ =>
    .bind (value place constness) fun _ => .pure fun _ => rfl)

theorem defaultValue :
    (Grammar.defaultValue constness).Follows place (Option.map (·.map place)) :=
  Alike.bind_same (optionalMark _) fun _ => (value place constness).optional _

theorem argument : (Grammar.argument constness).Follows place (·.map place) :=
  .located (.bind (name place) fun _ => .bind_same (mark _) fun _ =>
    .bind (value place constness) fun _ => .pure fun _ => rfl)

theorem arguments :
    (Grammar.arguments constness).Follows place (List.map (·.map place)) :=
  (argument place constness).optionalMany

theorem directive : (Grammar.directive constness).Follows place (·.map place) :=
  .located (.bind_same (mark _) fun _ => .bind (name place) fun _ =>
    .bind (arguments place constness) fun _ => .pure fun _ => rfl)

theorem directives :
    (Grammar.directives constness).Follows place (List.map (·.map place)) :=
  (directive place constness).repeatWhile

/-! ### Operations and fragments -/

theorem selectionSet : Grammar.selectionSet.Follows place (·.map place) :=
  nested .selectionSet

theorem fragmentName : Grammar.fragmentName.Follows place (·.map place) :=
  Alike.bind_same (peek _) fun _ => .ite (.refuse _ _) (name place)

theorem field : Grammar.field.Follows place (·.map place) := by
  have aliasAndName : Grammar.aliasAndName.Follows place
      (Prod.map (Option.map (·.map place)) (·.map place)) :=
    Alike.bind (name place) fun _ => .bind_same (optionalMark _) fun _ =>
      .ite (.bind (name place) fun _ => .pure rfl) (.pure rfl)
  refine .located
    (.bind aliasAndName fun (aliasName, name) => .bind (arguments place _) fun _ =>
      .bind (directives place _) fun _ => .bind_same (atMark _) fun _ =>
      .bind ((selectionSet place).optional _) fun selections => .pure fun _ => ?_)
  cases selections <;> rfl

theorem spread : Grammar.spread.Follows place (·.map place) := by
  refine .located (.bind_same (mark _) fun _ => .bind_same (optionalKeyword _) fun _ =>
    .bind_same (peek _) fun _ => .ite ?_ ?_)
  · exact .bind (fragmentName place) fun _ => .bind (directives place _) fun _ =>
      .pure fun _ => rfl
  · exact .bind ((namedType place).optional _)
      fun _ => .bind (directives place _) fun _ =>
        .bind (selectionSet place) fun _ => .pure fun _ => rfl

theorem selection : Grammar.selection.Follows place (·.map place) :=
  Alike.bind_same (atMark _) fun _ => .ite (spread place) (field place)

theorem selections : Grammar.selections.Follows place (·.map place) :=
  .located (.bind (selection place).many fun _ => .pure fun _ => by
    rw [SelectionSet.map, Selection.mapAll_eq])

theorem operationType : Grammar.operationType.Follows place id := by
  refine Alike.bind_same (peek _) fun found => ?_
  split
  · refine .bind_same advance fun _ => ?_
    split
    · exact .pure rfl
    · exact .ite (.refuse _ _) (.refuse _ _)
  · exact .refuse _ _

theorem variableDefinition :
    (Grammar.variableDefinition constness).Follows place (·.map place) :=
  .located (.bind (variableReference place) fun _ => .bind_same (mark _) fun _ =>
    .bind (typeReference place) fun _ => .bind (defaultValue place constness) fun _ =>
    .bind (directives place constness) fun _ => .pure fun _ => rfl)

theorem operationDefinition :
    (Grammar.operationDefinition constness).Follows place (·.map place) := by
  refine .located (.bind_same (atMark _) fun _ => .ite ?_ ?_)
  · exact .bind (selectionSet place) fun _ => .pure fun _ => rfl
  · exact .bind_same (operationType place) fun _ => .bind_same (peek _) fun _ =>
      .bind ((name place).optional _) fun _ =>
      .bind (variableDefinition place constness).optionalMany fun _ =>
      .bind (directives place _) fun _ => .bind (selectionSet place) fun _ =>
        .pure fun _ => rfl

theorem fragmentDefinition : Grammar.fragmentDefinition.Follows place (·.map place) :=
  .located (.bind_same (keyword _) fun _ => .bind (fragmentName place) fun _ =>
    .bind_same (keyword _) fun _ => .bind (namedType place) fun _ =>
    .bind (directives place _) fun _ => .bind (selectionSet place) fun _ =>
      .pure fun _ => rfl)

/-! ### Schemas and types -/

theorem description : Grammar.description.Follows place (Option.map (·.map place)) :=
  Alike.bind_same (peek _) fun _ => (stringValue place).optional _

theorem operationTypeDefinition :
    Grammar.operationTypeDefinition.Follows place (·.map place) :=
  .located (.bind_same (operationType place) fun _ => .bind_same (mark _) fun _ =>
    .bind (namedType place) fun _ => .pure fun _ => rfl)

theorem inputValueDefinition :
    (Grammar.inputValueDefinition constness).Follows place (·.map place) :=
  .located (.bind (description place) fun _ => .bind (name place) fun _ =>
    .bind_same (mark _) fun _ => .bind (typeReference place) fun _ =>
    .bind (defaultValue place constness)
      fun _ => .bind (directives place constness) fun _ =>
    .pure fun _ => rfl)

theorem argumentDefinitions :
    (Grammar.argumentDefinitions constness).Follows place (List.map (·.map place)) :=
  (inputValueDefinition place constness).optionalMany

theorem fieldDefinition :
    (Grammar.fieldDefinition constness).Follows place (·.map place) :=
  .located (.bind (description place) fun _ => .bind (name place) fun _ =>
    .bind (argumentDefinitions place constness) fun _ => .bind_same (mark _) fun _ =>
    .bind (typeReference place) fun _ => .bind (directives place constness) fun _ =>
    .pure fun _ => rfl)

theorem enumValueDefinition :
    (Grammar.enumValueDefinition constness).Follows place (·.map place) :=
  .located (.bind (description place) fun _ => .bind (name place) fun _ =>
    .bind (directives place constness) fun _ => .pure fun _ => rfl)

theorem directiveLocation : Grammar.directiveLocation.Follows place (·.map place) := by
  refine Alike.bind (name place) fun name => ?_
  have same : (name.map place).text = name.text := rfl
  cases known : DirectiveLocation.ofName? name.text with
  | some location =>
      simp only [same, known]
      exact .pure rfl
  | none =>
      simp only [same, known]
      exact .refuse _ _

theorem interfaces : Grammar.interfaces.Follows place (List.map (·.map place)) :=
  Alike.bind_same (optionalKeyword _) fun _ =>
    .ite ((namedType place).separated _) (.pure rfl)

theorem unionMembers : Grammar.unionMembers.Follows place (List.map (·.map place)) :=
  Alike.bind_same (optionalMark _) fun _ =>
    .ite ((namedType place).separated _) (.pure rfl)

theorem described {word : String} {rest : Option (StringValue Extent) → Rule (Extent → α)}
    {replace : α → α} {build : α → β} {replace' : β → β}
    (alike : ∀ description, Alike place
      (fun build build' => ∀ extent, replace (build extent) = build' (place extent))
      (rest description) (rest (description.map (·.map place))))
    (related : ∀ value, replace' (build value) = build (replace value)) :
    (build <$> Rule.located do
      let description ← Grammar.description
      Rule.keyword word
      rest description).Follows place replace' :=
  (located (.bind (description place) fun text => .bind_same (keyword word) fun _ =>
    alike text)).map build related

theorem definitionOfKeyword {word : String} {rule : Rule (Definition Extent)}
    (known : Grammar.definitionOfKeyword? word constness = some rule) :
    rule.Follows place (·.map place) := by
  have directives := directives place constness
  have name := name place
  have fielded (word : String) (build : FieldedTypeDefinition Extent → Definition Extent)
      (related : ∀ definition, (build definition).map place =
        build (definition.map place)) :
      (build <$> Grammar.fieldedTypeDefinition word constness).Follows place
        (·.map place) :=
    described place (fun _ => .bind name fun _ => .bind (interfaces place) fun _ =>
      .bind directives fun _ => .bind
        (fieldDefinition place constness).optionalMany fun _ =>
      .pure fun _ => rfl) related
  unfold Grammar.definitionOfKeyword? at known
  repeat' split at known
  all_goals cases known
  · exact described place (fun _ => .bind directives fun _ =>
      .bind (operationTypeDefinition place).many fun _ => .pure fun _ => rfl) fun _ => rfl
  · exact described place (fun _ => .bind name fun _ => .bind directives fun _ =>
      .pure fun _ => rfl) fun _ => rfl
  · exact fielded "type" .object fun _ => rfl
  · exact fielded "interface" .interface fun _ => rfl
  · exact described place (fun _ => .bind name fun _ => .bind directives fun _ =>
      .bind (unionMembers place) fun _ => .pure fun _ => rfl) fun _ => rfl
  · exact described place (fun _ => .bind name fun _ => .bind directives fun _ =>
      .bind (enumValueDefinition place constness).optionalMany fun _ =>
        .pure fun _ => rfl)
      fun _ => rfl
  · exact described place (fun _ => .bind name fun _ => .bind directives fun _ =>
      .bind (inputValueDefinition place constness).optionalMany fun _ =>
        .pure fun _ => rfl)
      fun _ => rfl
  · exact described place (fun _ => .bind_same (mark _) fun _ => .bind name fun _ =>
      .bind (argumentDefinitions place constness) fun _ =>
      .bind_same (optionalKeyword _) fun _ => .bind_same (keyword _) fun _ =>
      .bind ((directiveLocation place).separated _) fun _ => .pure fun _ => rfl) fun _ =>
        rfl

/-! ### Documents -/

theorem definition : (Grammar.definition constness).Follows place (·.map place) := by
  have described :
      (Grammar.describedDefinition constness).Follows place (·.map place) := by
    refine Alike.bind_same (peek _) fun next => ?_
    split
    · split
      next known => exact definitionOfKeyword place constness known
      next => exact .refuse _ _
    · exact .refuse _ _
  have operation :
      (Definition.operation <$> Grammar.operationDefinition constness).Follows place
      (·.map place) :=
        (operationDefinition place constness).map Definition.operation fun _ => rfl
  refine Alike.bind_same (peek _) fun found => ?_
  split
  · exact operation
  next word =>
    refine .ite operation
      (.ite ((fragmentDefinition place).map Definition.fragment fun _ => rfl)
      (.ite (.refuse _ _) (.ite (.refuse _ _) ?_)))
    cases known : Grammar.definitionOfKeyword? word constness with
    | some rule => exact definitionOfKeyword place constness known
    | none => exact .refuse _ _
  · exact described
  · exact described
  · exact .refuse _ _

theorem document : Grammar.document.Follows place (·.map place) :=
  .located (.bind_same (expect _) fun _ => .bind (definition place _) fun _ =>
    .bind (definition place _).repeatWhile fun _ => .bind_same (expect _) fun _ =>
    .pure fun _ => rfl)

theorem alone {rule : Rule α} {replace : α → α} (follows : rule.Follows place replace) :
    (Grammar.alone rule).Follows place replace :=
  Alike.bind_same (expect _) fun _ => .bind follows
    fun _ => .bind_same (expect _) fun _ =>
      .pure rfl

theorem production (part : Nonterminal) :
    (Grammar.production part).Follows place (part.map place) := by
  cases part with
  | selectionSet => exact selections place
  | list constness =>
      exact located (.bind (value place constness).any fun _ => .pure fun _ => by
        rw [Nonterminal.map, Value.map, Value.mapAll_eq])
  | object constness =>
      exact located (.bind (objectMember place constness).any fun _ => .pure fun _ => by
        rw [Nonterminal.map, Value.map, ObjectMember.mapAll_eq])
  | listElement => exact typeReference place

end Follows

theorem alike_nonterminal (place : Extent → Extent) (limit depth : Nat)
    (part : Nonterminal) :
    (Parser.nonterminal limit depth part).Alike (part.map place · = ·)
      (Parser.nonterminalBy place limit depth part) := by
  induction depth generalizing part with
  | zero => exact .refuse _ _
  | succ depth induction => exact Follows.production place part _ _ induction

theorem Follows.ofRule {place : Extent → Extent} {rule : Rule α} {replace : α → α}
    (follows : rule.Follows place replace) (limit : Nat) :
    (Parser.ofRule rule limit).Alike (replace · = ·) (Parser.ofRuleBy place rule limit) :=
  follows _ _ (alike_nonterminal place limit limit)

end Rule

/-! ## Locations -/

namespace ParseOptions

/-- What a node is given for its extent, as it is asked at the node. No token has the
number that is given to a node without a location. -/
def placed (options : ParseOptions) (source : Source) (extent : Extent) : Extent :=
  if options.noLocation then ⟨source.size + 2, source.size + 2⟩ else extent

def spanOf (tokens : Array Token) (extent : Extent) : Note := do
  let first ← tokens[extent.first]?
  let last ← tokens[extent.last]?
  return ⟨first.start.offset, last.stop⟩

theorem spanOf_placed (options : ParseOptions) {source : Source} {tokens : Array Token}
    (few : tokens.size ≤ source.size + 2) :
    spanOf tokens ∘ options.placed source = options.note tokens := by
  funext extent
  rw [Function.comp_apply, placed, note]
  split
  · rw [spanOf, Array.getElem?_eq_none few]
    rfl
  · rfl

end ParseOptions

/-- Reads as `readBy` does, but asks at every node whether it is to have a location. -/
def readAsking {Tree : Type → Type} (rule : Rule (Tree Extent))
    (map : (Extent → Note) → Tree Extent → Tree Note) (options : ParseOptions)
    (lexer : Lexer) :
    Except Diagnostic (Tree Note) × Lexer :=
  let (outcome, after) :=
    Parser.ofRuleBy (options.placed lexer.source) rule options.maxNestingDepth lexer
  let tokens := after.significantTokens.toArray
  (match outcome with
    | .ok tree => .ok (map (ParseOptions.spanOf tokens) tree)
    | .error failure => .error (failure.diagnostic after.source options tokens), after)

section

variable {Tree : Type → Type} {rule : Rule (Tree Extent)} {source : Source}
variable {options : ParseOptions}
variable {map : (Extent → Note) → Tree Extent → Tree Note}

theorem Parser.size_significantTokens_le (rule : Rule α) (source : Source) (limit : Nat) :
    (Parser.ofRule rule limit (.start source)).2.significantTokens.length ≤
      source.size + 2 := by
  obtain ⟨tokens, ending, yields⟩ := source.exists_yields
  obtain ⟨_, start, _⟩ := Lexer.moves_start yields
  obtain ⟨ahead, moves⟩ := Keeps.ofRule (Lexer.lasts_moves yields) rule limit _ ⟨_, start⟩
  obtain ⟨unread, along, _⟩ := moves.along
  refine Nat.le_trans (List.length_filter_le ..) (Nat.le_trans ?_ yields.length_le)
  rw [along.split, List.length_append]
  exact Nat.le_add_right ..

theorem readAsking_eq_readBy {replace : Tree Extent → Tree Extent}
    (follows : rule.Follows (options.placed source) replace)
    (map_replace : ∀ note tree, map note (replace tree) =
      map (note ∘ options.placed source) tree) :
    readAsking rule map options (.start source) =
      readBy rule map options (.start source) := by
  have few := Parser.size_significantTokens_le rule source options.maxNestingDepth
  have ends := follows.ofRule options.maxNestingDepth (.start source)
  unfold readAsking readBy
  change Parser.EndsAlike _ _
    (Parser.ofRuleBy (options.placed (Lexer.start source).source) rule _ _) at ends
  generalize Parser.ofRule rule options.maxNestingDepth (.start source) =
    result at few ends
  generalize Parser.ofRuleBy _ rule options.maxNestingDepth (.start source) =
    result' at ends
  cases ends with
  | failure => rfl
  | @value tree _ after related =>
      have few : after.significantTokens.toArray.size ≤ source.size + 2 := few
      subst related
      simp only [map_replace, options.spanOf_placed few]

end

/-- To ask at every node whether it is to have a location is to ask once for
the whole tree. -/
theorem parse_asking (source : Source) (options : ParseOptions) :
    (readAsking Grammar.document Document.map options (.start source)).1 =
      parse source options ∧
      (readAsking Grammar.valueAlone Value.map options (.start source)).1 =
        parseValue source options ∧
      (readAsking Grammar.typeAlone TypeReference.map options (.start source)).1 =
        parseType source options := by
  have document := Rule.Follows.document (options.placed source)
  have value := (Rule.Follows.value (options.placed source) .variable).alone
  have type := (Rule.Follows.typeReference (options.placed source)).alone
  refine ⟨congrArg Prod.fst (readAsking_eq_readBy document ?_),
    congrArg Prod.fst (readAsking_eq_readBy value ?_),
    congrArg Prod.fst (readAsking_eq_readBy type ?_)⟩ <;>
  · intro note tree
    simp

end GraphQL
