import GraphQL.Proofs.Parsing.Tightening
import GraphQL.Proofs.Syntax.Constants

/-! Constants hold no variables.

A document is read by a grammar that takes no variables in its constants. Were they
allowed, the grammar would read the same documents and some more, and of these it refuses
each for the first variable that stands in a constant. -/

namespace GraphQL

open Rule

variable {source : Source} {limit depth : Nat}

/-! ## Refused variables -/

theorem Rule.runAt_refuseVariable_ne_ok {lexer after : Lexer} (value : Value Extent) :
    Grammar.refuseVariable.runAt limit depth lexer ≠ (.ok value, after) := by
  intro outcome
  obtain ⟨found, middle, _, refused⟩ := runAt_bind_eq_ok.mp outcome
  split at refused
  next => exact runAt_refuse_ne_ok _ _ _ refused
  next => exact runAt_refuse_ne_ok _ _ _ refused

theorem Rule.runAt_refuseVariable {lexer there : Lexer} {next : Token} {text : String}
    (ahead : lexer.lookahead = (.ok next, there)) (isName : next.lexeme = .name text) :
    Grammar.refuseVariable.runAt limit depth lexer =
      (.error (.grammatical (.variableInConstant text) there.current.ordinal),
        there) := by
  change Parser.bind (Parser.bind (Parser.ask Lexer.lookahead) fun token =>
    Parser.pure token.lexeme) _
    lexer = _
  simp only [Parser.bind, Parser.ask, ahead]
  change Rule.run _ _ there = _
  rw [isName]
  rfl

theorem Lexer.exists_lookahead {lexer after : Lexer} {token : Token}
    (moved : lexer.advance = (.ok token, after)) :
    ∃ there, lexer.lookahead = (.ok token, there) := by
  unfold Lexer.advance at moved
  split at moved
  next ahead =>
    cases moved
    exact ⟨_, ahead⟩
  next => cases moved

/-- A rule of which one reading takes variables and the other is to be constant. Where it
differs are the constants of what is read. -/
def Guards {α : Type} (source : Source) (limit depth : Nat) (rule : Constness → Rule α)
    (constants : α → List (Value Extent)) : Prop :=
  Tightens source limit depth (Lists fun part => (constants part).flatMap Value.variables)
    (rule .constant) (rule .variable)

namespace Tightens

variable {α : Type}

/-! ## Values -/

theorem variableReference :
    Tightens source limit depth (Lists Value.variables) Grammar.refuseVariable
    (Value.variable <$> Grammar.variableReference) := by
  intro lexer isOn
  cases loose : (Value.variable <$> Grammar.variableReference).runAt limit
    depth lexer with
  | mk outcome after =>
  cases outcome with
  | error failure =>
      cases strict : Grammar.refuseVariable.runAt limit depth lexer with
      | mk outcome' there =>
      cases outcome' with
      | error failure' => exact .failed
      | ok value => exact (runAt_refuseVariable_ne_ok _ strict).elim
  | ok value =>
      obtain ⟨use, _, read, built⟩ := runAt_bind_eq_ok.mp loose
      cases built
      obtain ⟨sign, first, next, last, middle, moved, isName, moved'⟩ :=
        runAt_variableReference_eq_ok read
      obtain ⟨isOn', current, following, found⟩ :=
        isOn.advance (by rw [Token.isEndOfFile, sign]; rfl) moved
      obtain ⟨_, current', ordinal, _⟩ :=
        isOn'.advance (by rw [Token.isEndOfFile, isName]; rfl) moved'
      obtain ⟨there, ahead⟩ := Lexer.exists_lookahead moved
      obtain ⟨isOnThere, stays⟩ := isOn.lookahead ahead
      rw [current] at isName ordinal
      rw [runAt_refuseVariable ahead isName, stays]
      have listed : Lists Value.variables (.variable use) [use] := rfl
      have inOrder : InOrder lexer.current.ordinal after.current.ordinal [use] := by
        refine ⟨List.pairwise_singleton _ _, List.forall_mem_singleton.mpr ⟨first.ge, ?_⟩⟩
        rw [first, current', ordinal, following]
        exact Nat.lt_add_of_pos_right Nat.two_pos
      rw [← first] at found ⊢
      exact .stopped listed inOrder
        ⟨isOnThere, (congrArg Token.ordinal stays).trans first.symm, stays ▸ sign, next,
          found, isName⟩

theorem plainValue {build : Extent → Value Extent}
    (without : ∀ extent, (build extent).variables = []) :
    Tightens source limit depth (Lists Value.variables) (Grammar.plainValue build)
      (Grammar.plainValue build) :=
  located (after advance fun _ => pure fun extent => (without extent).symm)

theorem numberValue {fits : Bool} {build : Extent → Value Extent} (fault : GrammarFault)
    (without : ∀ extent, (build extent).variables = []) :
    Tightens source limit depth (Lists Value.variables)
      (Grammar.numberValue fits build fault)
      (Grammar.numberValue fits build fault) := by
  refine located (after advance fun _ => ?_)
  split
  · exact pure fun extent => (without extent).symm
  · exact refuse _ _ _ _

/-- A value, if lists and objects are read one level deeper as they should be -/
theorem value_of_nested
    (list : Tightens source limit depth (Lists Value.variables)
      (Rule.nested (.list .constant)) (Rule.nested (.list .variable)))
    (object : Tightens source limit depth (Lists Value.variables)
      (Rule.nested (.object .constant)) (Rule.nested (.object .variable))) :
    Tightens source limit depth (Lists Value.variables) (Grammar.value .constant)
      (Grammar.value .variable) := by
  refine after (peek .current) fun found => ?_
  cases found with
  | punctuator mark =>
      cases mark with
      | leftBracket => exact list
      | leftBrace => exact object
      | dollar => exact variableReference
      | _ => exact refuse _ _ _ _
  | integer | float => exact numberValue _ fun _ => rfl
  | string | blockString => exact after Grammar.stringValue fun _ => pure rfl
  | name text =>
      refine plainValue fun extent => ?_
      unfold Grammar.valueOfName
      split_ifs <;> rfl
  | _ => exact refuse _ _ _ _

theorem listValue
    (value : Tightens source limit depth (Lists Value.variables) (Grammar.value .constant)
      (Grammar.value .variable)) :
    Tightens source limit depth (Lists Value.variables) (Grammar.listValue .constant)
      (Grammar.listValue .variable) :=
  located <| (value.any _ _).bindLists fun items => pure fun extent => by
    rw [Lists, List.append_nil, Value.variables, Value.variablesOfAll_eq]

theorem objectValue
    (value : Tightens source limit depth (Lists Value.variables) (Grammar.value .constant)
      (Grammar.value .variable)) :
    Tightens source limit depth (Lists Value.variables) (Grammar.objectValue .constant)
      (Grammar.objectValue .variable) := by
  have member : Tightens source limit depth (Lists ObjectMember.variables)
      (Grammar.objectMember .constant) (Grammar.objectMember .variable) :=
    located <| after Grammar.name fun name => after (mark .colon)
      fun _ => value.bindLists fun value =>
        pure fun extent => by rw [Lists, List.append_nil, ObjectMember.variables]
  refine located <| (member.any _ _).bindLists fun members => pure fun extent => ?_
  rw [Lists, List.append_nil, Value.variables, ObjectMember.variablesOfAll_eq]

theorem value :
    Tightens source limit depth (Lists Value.variables) (Grammar.value .constant)
    (Grammar.value .variable) := by
  induction depth with
  | zero =>
      have tooDeep : Tightens source limit 0 (Lists Value.variables) _ _ :=
        refuse .current .current (.nestedTooDeep limit) (.nestedTooDeep limit)
      exact value_of_nested tooDeep tooDeep
  | succ depth below => exact value_of_nested (listValue below) (objectValue below)

/-! ## Directives and default values -/

theorem directives :
    Guards source limit depth Grammar.directives (List.flatMap Directive.values) := by
  have argument :
      Guards source limit depth Grammar.argument fun argument => [argument.value] :=
    located <| after Grammar.name fun name => after (mark .colon)
      fun _ => value.bindLists fun value =>
        pure fun extent => by simp [Lists]
  have directive : Guards source limit depth Grammar.directive Directive.values :=
    located <| after (mark .atSign) fun _ => after Grammar.name fun name =>
      (argument.optionalMany _ _).bindLists fun arguments => pure fun extent => by
        simp [Lists, Directive.values, List.flatMap_map]
  exact (directive.repeatWhile _).listing fun directives => by rw [List.flatMap_assoc]

theorem defaultValue : Guards source limit depth (Grammar.defaultValue ·) Option.toList :=
  after (optionalMark .equals) fun there => value.optional there

theorem constantsOf {build : Option (Value Extent) → List (Directive Extent) → Extent → α}
    {constants : α → List (Value Extent)}
    (built : ∀ value directives extent,
      constants (build value directives extent) = GraphQL.constantsOf value directives) :
    Tightens source limit depth
      (fun part more => ∀ extent,
        Lists (fun part => (constants part).flatMap Value.variables) (part extent) more)
      (do
        let value ← Grammar.defaultValue
        let directives ← Grammar.directives .constant
        return build value directives)
      (do
        let value ← Grammar.defaultValue .variable
        let directives ← Grammar.directives .variable
        return build value directives) :=
  defaultValue.bindLists fun value => directives.bindLists fun directives => pure
    fun extent => by
      simp [Lists, built, GraphQL.constantsOf, List.flatMap_assoc]

/-! ## Definitions -/

theorem variableDefinition :
    Guards source limit depth
      (Grammar.variableDefinition ·) VariableDefinition.constants :=
  located <| after Grammar.variableReference fun _ => after (mark .colon) fun _ =>
    after Grammar.typeReference fun _ => constantsOf fun _ _ _ => rfl

theorem operationDefinition : Guards source limit depth (Grammar.operationDefinition ·)
    fun definition =>
      definition.variableDefinitions.flatMap VariableDefinition.constants := by
  refine located <| after (atMark .leftBrace) fun bare => ?_
  split
  · exact after Grammar.selectionSet fun _ => pure fun _ => rfl
  · refine after Grammar.operationType fun _ => after (peek .current)
      fun _ => after _ fun _ =>
        (variableDefinition.optionalMany _ _).bindLists
          fun declared => after (Grammar.directives .variable) fun _ =>
            after Grammar.selectionSet fun _ => pure fun extent => ?_
    rw [Lists, List.append_nil, List.flatMap_assoc]

theorem ownDirectives :
    Guards source limit depth Grammar.directives (GraphQL.constantsOf none) := directives

theorem schemaDefinition : Guards source limit depth (Grammar.schemaDefinition ·)
    fun definition => GraphQL.constantsOf none definition.directives :=
  located <| after Grammar.description fun _ => after (keyword _)
    fun _ => ownDirectives.bindLists fun directives =>
      after (Rule.many _ _ _) fun _ => pure fun _ => by rw [Lists, List.append_nil]

theorem scalarTypeDefinition : Guards source limit depth (Grammar.scalarTypeDefinition ·)
    fun definition => GraphQL.constantsOf none definition.directives :=
  located <| after Grammar.description fun _ => after (keyword _)
    fun _ => after Grammar.name fun _ =>
      ownDirectives.bindLists fun directives => pure fun _ => by
        rw [Lists, List.append_nil]

theorem unionTypeDefinition : Guards source limit depth (Grammar.unionTypeDefinition ·)
    fun definition => GraphQL.constantsOf none definition.directives :=
  located <| after Grammar.description fun _ => after (keyword _)
    fun _ => after Grammar.name fun _ =>
      ownDirectives.bindLists fun directives => after Grammar.unionMembers
        fun _ => pure fun _ => by
          rw [Lists, List.append_nil]

theorem inputValueDefinition :
    Guards source limit depth
      (Grammar.inputValueDefinition ·) InputValueDefinition.constants :=
  located <| after Grammar.description fun _ => after Grammar.name
    fun _ => after (mark .colon) fun _ =>
      after Grammar.typeReference fun _ => constantsOf fun _ _ _ => rfl

theorem argumentDefinitions : Guards source limit depth (Grammar.argumentDefinitions ·)
    (List.flatMap InputValueDefinition.constants) :=
  (inputValueDefinition.optionalMany _ _).listing fun _ => by rw [List.flatMap_assoc]

theorem fieldDefinition :
    Guards source limit depth (Grammar.fieldDefinition ·) FieldDefinition.constants :=
  located <| after Grammar.description fun _ => after Grammar.name fun _ =>
    argumentDefinitions.bindLists fun arguments => after (mark .colon)
      fun _ => after Grammar.typeReference fun _ =>
        ownDirectives.bindLists fun directives => pure fun _ => by
          rw [Lists, List.append_nil, FieldDefinition.constants, List.flatMap_append]

theorem enumValueDefinition :
    Guards source limit depth
      (Grammar.enumValueDefinition ·) EnumValueDefinition.constants :=
  located <| after Grammar.description fun _ => after Grammar.name fun _ =>
    ownDirectives.bindLists fun directives => pure fun _ => by
      rw [Lists, List.append_nil, EnumValueDefinition.constants]

theorem bodied {β : Type} {rule : Constness → Rule β}
    {constants : β → List (Value Extent)}
    {build : List (Directive Extent) → List β → Extent → α}
    {constants' : α → List (Value Extent)}
    (member : Guards source limit depth rule constants)
    (built : ∀ directives members extent, constants' (build directives members extent) =
      GraphQL.constantsOf none directives ++ members.flatMap constants) :
    Tightens source limit depth
      (fun part more => ∀ extent,
        Lists (fun part => (constants' part).flatMap Value.variables) (part extent) more)
      (do
        let directives ← Grammar.directives .constant
        let members ← Rule.optionalMany .leftBrace (rule .constant) .rightBrace
        return build directives members)
      (do
        let directives ← Grammar.directives .variable
        let members ← Rule.optionalMany .leftBrace (rule .variable) .rightBrace
        return build directives members) :=
  ownDirectives.bindLists fun directives => (member.optionalMany _ _).bindLists
    fun members => pure fun extent => by
      rw [Lists, List.append_nil, built, List.flatMap_append, List.flatMap_assoc]

theorem fieldedTypeDefinition (word : String) :
    Guards source limit depth (Grammar.fieldedTypeDefinition word ·)
    fun definition => GraphQL.constantsOf none definition.directives ++
      definition.fields.flatMap FieldDefinition.constants :=
  located <| after Grammar.description fun _ => after (keyword _)
    fun _ => after Grammar.name fun _ =>
      after Grammar.interfaces fun _ => bodied fieldDefinition fun _ _ _ => rfl

theorem enumTypeDefinition : Guards source limit depth (Grammar.enumTypeDefinition ·)
    fun definition => GraphQL.constantsOf none definition.directives ++
      definition.values.flatMap EnumValueDefinition.constants :=
  located <| after Grammar.description fun _ => after (keyword _)
    fun _ => after Grammar.name fun _ =>
      bodied enumValueDefinition fun _ _ _ => rfl

theorem inputObjectTypeDefinition :
    Guards source limit depth (Grammar.inputObjectTypeDefinition ·)
    fun definition => GraphQL.constantsOf none definition.directives ++
      definition.fields.flatMap InputValueDefinition.constants :=
  located <| after Grammar.description fun _ => after (keyword _)
    fun _ => after Grammar.name fun _ =>
      bodied inputValueDefinition fun _ _ _ => rfl

theorem directiveDefinition : Guards source limit depth (Grammar.directiveDefinition ·)
    fun definition => definition.arguments.flatMap InputValueDefinition.constants :=
  located <| after Grammar.description fun _ => after (keyword _)
    fun _ => after (mark .atSign) fun _ =>
      after Grammar.name fun _ => argumentDefinitions.bindLists
        fun arguments => after (optionalKeyword _) fun _ =>
          after (keyword _) fun _ => after (separated _ _) fun _ => pure fun _ => by
            rw [Lists, List.append_nil]

/-! ## Documents -/

theorem definitionOfKeyword (word : String) (blamed : Vantage) (fault : GrammarFault) :
    Guards source limit depth
      (fun constness =>
        (Grammar.definitionOfKeyword? word constness).getD (Rule.refuse blamed fault))
      Definition.constants := by
  unfold Guards Grammar.definitionOfKeyword?
  split_ifs
  · exact schemaDefinition.map fun _ => rfl
  · exact scalarTypeDefinition.map fun _ => rfl
  · exact (fieldedTypeDefinition _).map fun _ => rfl
  · exact (fieldedTypeDefinition _).map fun _ => rfl
  · exact unionTypeDefinition.map fun _ => rfl
  · exact enumTypeDefinition.map fun _ => rfl
  · exact inputObjectTypeDefinition.map fun _ => rfl
  · exact directiveDefinition.map fun _ => rfl
  · exact refuse _ _ _ _

theorem describedDefinition :
    Guards source limit depth (Grammar.describedDefinition ·) Definition.constants := by
  refine after (peek .ahead) fun found => ?_
  split
  next word =>
      have both : Guards source limit depth _ _ :=
        definitionOfKeyword word .ahead (.unexpected (.name word))
      unfold Guards at both
      cases strict : Grammar.definitionOfKeyword? word <;>
        cases loose : Grammar.definitionOfKeyword? word .variable <;>
          simpa only [strict, loose, Option.getD_some, Option.getD_none] using both
  next => exact refuse _ _ _ _

theorem keywordDefinition (word : String) :
    Guards source limit depth
      (Grammar.keywordDefinition word ·) Definition.constants := by
  unfold Guards Grammar.keywordDefinition
  split_ifs
  · exact operationDefinition.map fun _ => rfl
  · exact after Grammar.fragmentDefinition fun _ => pure rfl
  · exact refuse _ _ _ _
  · exact refuse _ _ _ _
  · exact definitionOfKeyword word .current (.unexpected (.name word))

theorem definition :
    Guards source limit depth (Grammar.definition ·) Definition.constants := by
  refine after (peek .current) fun found => ?_
  split
  next => exact operationDefinition.map fun _ => rfl
  next word => exact keywordDefinition word
  next => exact describedDefinition
  next => exact describedDefinition
  next => exact refuse _ _ _ _

theorem document : Guards source limit depth (Grammar.document ·) Document.constants :=
  located <| after (expect _) fun _ => definition.bindLists fun first =>
    (definition.repeatWhile _).bindLists fun others => after (expect _)
      fun _ => pure fun _ => by
        rw [Lists, List.append_nil, Document.constants, List.flatMap_cons,
          List.flatMap_append, List.flatMap_assoc]

end Tightens

/-! ## What is parsed -/

/-- The source is refused for a variable, which is the first of those that stand in
constants, at its dollar sign. -/
structure RefusedFor {α : Type} (source : Source) (uses : List (Variable Extent))
    (parsed : Except Diagnostic α) (use : Variable Extent)
    (sign name : Token) : Prop where
  member : use ∈ uses
  first : ∀ other ∈ uses, use.location.first ≤ other.location.first
  begins : (significant source.scanned)[use.location.first]? = some sign
  isDollar : sign.lexeme = .punctuator .dollar
  follows : (significant source.scanned)[use.location.first + 1]? = some name
  isName : name.lexeme = .name use.name.text
  refused : parsed = .error
    { message := "Unexpected variable \"$" ++ use.name.text ++ "\" in constant value."
      kind := .variableInConstant use.name.text
      source := some source
      positions := [sign.start.offset] }

/-- Reading the source, constants may hold variables or not. -/
theorem tightened_start (source : Source) (limit : Nat) :
    Tightened source (Lists fun document => document.constants.flatMap Value.variables)
      (.start source)
      ((Grammar.document .variable).runAt limit limit (.start source))
      (Grammar.document.runAt limit limit (.start source)) :=
  Tightens.document _ (Lexer.isOn_start source)

theorem isConstant_of_parse {options : ParseOptions}
    {document : Document ParseOptions.Note}
    (parsed : parse source options = .ok document) :
    ∀ value ∈ document.constants, value.isConstant = true := by
  intro value member
  have tightened := tightened_start source options.maxNestingDepth
  cases strict : Grammar.document.runAt options.maxNestingDepth options.maxNestingDepth
      (.start source) with
  | mk outcome after =>
  rw [parse, readDocument, Rule.readBy_eq _ _ strict] at parsed
  rw [strict] at tightened
  generalize (Grammar.document .variable).runAt options.maxNestingDepth _ _ =
    loose at tightened
  cases tightened with
  | stopped | failed => cases parsed
  | same without =>
      cases parsed
      rw [Document.constants_map] at member
      obtain ⟨constant, member', rfl⟩ := List.mem_map.mp member
      rw [Value.isConstant_map, Value.isConstant_iff]
      exact List.flatMap_eq_nil_iff.mp without.symm constant member'

/-- No constant of a document holds a variable. A source that could be read if constants
were allowed to is refused for the first variable that they would hold. -/
theorem constants_hold_no_variables (source : Source) (options : ParseOptions) :
    (∀ document, parse source options = .ok document →
      ∀ value ∈ document.constants, value.isConstant = true) ∧
      ∀ tree after,
        Parser.ofRule (Grammar.document .variable) options.maxNestingDepth
          (.start source) =
          (.ok tree, after) →
        (∃ value ∈ tree.constants, value.isConstant = false) →
        ∃ use sign name,
          RefusedFor source (tree.constants.flatMap Value.variables)
            (parse source options) use sign name := by
  refine ⟨fun document parsed => isConstant_of_parse parsed, ?_⟩
  rintro tree after loose ⟨value, member, isVariable⟩
  have tightened := tightened_start source options.maxNestingDepth
  cases strict : Grammar.document.runAt options.maxNestingDepth options.maxNestingDepth
      (.start source) with
  | mk outcome there =>
  change (Grammar.document .variable).runAt options.maxNestingDepth _ _ = _ at loose
  rw [loose, strict] at tightened
  cases tightened with
  | same without =>
      have constant := List.flatMap_eq_nil_iff.mp without.symm value member
      rw [← Value.isConstant_iff, isVariable] at constant
      cases constant
  | @stopped _ use others _ _ listed order isAt =>
      have listed : use :: others = tree.constants.flatMap Value.variables := listed
      obtain ⟨begins, read⟩ := isAt.isOn.getElem?_ordinal
      obtain ⟨name, follows, isName⟩ := isAt.name
      rw [isAt.ordinal] at begins read
      refine ⟨use, there.current, name, ?_, ?_, begins, isAt.sign, follows, isName, ?_⟩
      · rw [← listed]
        exact List.mem_cons_self ..
      · rw [← listed]
        refine List.forall_mem_cons.mpr ⟨Nat.le_refl _, fun other member => ?_⟩
        exact Nat.le_of_lt (List.rel_of_pairwise_cons order.ascending member)
      · rw [parse, readDocument, Rule.readBy_eq _ _ strict]
        change Except.error (Failure.diagnostic _ _ _ _) = _
        rw [Failure.diagnostic, List.getElem?_toArray, read, Option.getD_some,
          isAt.isOn.source_eq]
        rfl

theorem constants_of_input_field :
    (∃ document, parse { body := "input A\x7bb:C=[1]\x7d" } ⟨false, 3⟩ = .ok document ∧
      document.constants.length = 1 ∧
      ∀ value ∈ document.constants, value.isConstant = true) ∧
      ∃ tree after, Parser.ofRule (Grammar.document .variable) 3
        (.start { body := "input A\x7bb:C=[$d]\x7d" }) =
          (.ok tree, after) ∧
        (∃ value ∈ tree.constants, value.isConstant = false) ∧
        ∃ use sign name,
          RefusedFor { body := "input A\x7bb:C=[$d]\x7d" } (tree.constants.flatMap
            Value.variables)
          (parse { body := "input A\x7bb:C=[$d]\x7d" } ⟨false, 3⟩) use sign name := by
  constructor
  · have count : (parse { body := "input A\x7bb:C=[1]\x7d" } ⟨false, 3⟩).toOption.map
        (·.constants.length) =
        some 1 := by decide +kernel
    cases parsed : parse { body := "input A\x7bb:C=[1]\x7d" } ⟨false, 3⟩ with
    | error diagnostic =>
        rw [parsed] at count
        cases count
    | ok document =>
        rw [parsed] at count
        exact ⟨document, rfl, Option.some.inj count,
          (constants_hold_no_variables _ _).1 document parsed⟩
  · have held : (Parser.ofRule (Grammar.document .variable) 3
        (.start { body := "input A\x7bb:C=[$d]\x7d" })).1.toOption.map
          (·.constants.any (!·.isConstant)) =
          some true := by decide +kernel
    cases loose : Parser.ofRule (Grammar.document .variable) 3
      (.start { body := "input A\x7bb:C=[$d]\x7d" }) with
    | mk outcome after =>
    rw [loose] at held
    cases outcome with
    | error failure => cases held
    | ok tree =>
        have isVariable : ∃ value ∈ tree.constants, value.isConstant = false := by
          simpa using Option.some.inj held
        exact ⟨tree, after, rfl, isVariable,
          (constants_hold_no_variables _ ⟨false, 3⟩).2 tree after loose isVariable⟩

end GraphQL
