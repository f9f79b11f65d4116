import GraphQL.Grammar.Rule
import GraphQL.Proofs.Numbers.Nearest
import GraphQL.Syntax.Outline

/-! The productions of the grammar.

A syntax tree is a derivation of the grammar: every node stands for one use of a
production, and what the production puts between the parts of the node follows
from the node. `Node.parts` lists, for every kind of node, what it is written as.
Nothing here looks at tokens from left to right, so nothing here is a parser. -/

namespace GraphQL

variable {L M : Type}

/-- What a token has to say. A number may be written in many ways; of any other
token the tree keeps all there is. -/
inductive Spelling where
  | exactly (lexeme : Lexeme)
  | integer (value : Int)
  | float (value : Binary64)

namespace Spelling

/-- Whether a token says it. Integers that do not fit in 32 bits say nothing, and neither
do literals that spell no number. -/
def Fits : Spelling → Lexeme → Prop
  | exactly lexeme, found => found = lexeme
  | integer value, found => ∃ literal, found = .integer literal ∧ Denotes literal value ∧
      -2 ^ 31 ≤ value ∧ value ≤ 2 ^ 31 - 1
  | float value, found =>
      ∃ literal, found = .float literal ∧ Binary64.IsNearest literal value

def mark (punctuator : Punctuator) : Spelling := exactly (.punctuator punctuator)

def word (text : String) : Spelling := exactly (.name text)

end Spelling

/-- A piece of the right-hand side of a production. -/
inductive Part (L : Type) where
  | token (spelling : Spelling)
  /-- A token that says nothing the tree keeps, and may be left out. -/
  | perhaps (spelling : Spelling)
  /-- No token, but a condition that the production makes. -/
  | provided (condition : Bool)
  /-- No token, but the one that follows must not be this mark. -/
  | notBefore (mark : Punctuator)
  | child (role : Role) (constness : Constness) (node : Node L)

namespace Part

def mark (punctuator : Punctuator) : Part L := token (.mark punctuator)

def word (text : String) : Part L := token (.word text)

def name (name : Name L) : Part L := child .name .variable (.name name)

/-- `( item+ )`, if there are items -/
def inParens (items : List (Part L)) : List (Part L) :=
  if items.isEmpty then [] else mark .leftParen :: items ++ [mark .rightParen]

/-- `{ item+ }` if there are items, else `[lookahead ≠ {]` -/
def inBraces (items : List (Part L)) : List (Part L) :=
  if items.isEmpty then [notBefore .leftBrace]
  else mark .leftBrace :: items ++ [mark .rightBrace]

/-- `separator? item (separator item)*` -/
def separated (separator : Punctuator) : List (Part L) → List (Part L)
  | [] => []
  | first :: others =>
      perhaps (.mark separator) :: first :: others.flatMap ([mark separator, ·])

/-- `Description?` -/
def description (description : Option (StringValue L)) : List (Part L) :=
  (description.map (child .description .constant <| .description ·)).toList

/-- `Directives[?Const]?` -/
def directives (constness : Constness) (directives : List (Directive L)) :
    List (Part L) :=
  directives.map (child .directive constness <| .directive ·)

/-- `Arguments[?Const]?` -/
def arguments (constness : Constness) (arguments : List (Argument L)) : List (Part L) :=
  inParens (arguments.map (child .argument constness <| .argument ·))

/-- `DefaultValue? : = Value[Const]` -/
def defaultValue : Option (Value L) → List (Part L)
  | none => []
  | some value => [mark .equals, child .default .constant (.value value)]

/-- `ArgumentsDefinition?` -/
def argumentDefinitions (definitions : List (InputValueDefinition L)) : List (Part L) :=
  inParens (definitions.map (child .argument .constant <| .inputValueDefinition ·))

/-- `ImplementsInterfaces? : implements &? NamedType (& NamedType)*` -/
def interfaces : List (NamedType L) → List (Part L)
  | [] => []
  | types => word "implements" ::
      separated .ampersand (types.map (child .interface .constant <| .namedType ·))

/-- `UnionMemberTypes? : = |? NamedType (| NamedType)*` -/
def unionMembers : List (NamedType L) → List (Part L)
  | [] => []
  | types => mark .equals ::
      separated .pipe (types.map (child .member .constant <| .namedType ·))

end Part

open GraphQL.Part

/-! ## Names, types and values -/

/-- `Type : NamedType | [ Type ] | NamedType ! | [ Type ] !` -/
def TypeReference.parts : TypeReference L → List (Part L)
  | .named type => [.name type.name]
  | .list inner _ =>
      [mark .leftBracket, child .inner .constant (.type inner), mark .rightBracket]
  | .nonNull inner _ =>
      [provided inner.isNullable, child .inner .constant (.type inner), mark .bang]

def StringValue.spelling (string : StringValue L) : Spelling :=
  .exactly (if string.isBlock then .blockString string.value else .string string.value)

/-- `Variable : $ Name` -/
def Variable.parts (reference : Variable L) : List (Part L) :=
  [mark .dollar, .name reference.name]

/-- `Value[Const] : [~Const] Variable | IntValue | FloatValue | StringValue | BooleanValue
| NullValue | EnumValue | [ Value[?Const]* ] | { ObjectField[?Const]* }`, where an
`EnumValue` is any `Name` but `true`, `false` and `null` -/
def Value.parts (constness : Constness) : Value L → List (Part L)
  | .boolean value _ => [word (if value then "true" else "false")]
  | .enum name _ => [provided (name ∉ ["true", "false", "null"]), word name]
  | .float value _ => [token (.float value)]
  | .int value _ => [token (.integer value)]
  | .list items _ =>
      mark .leftBracket :: items.map (child .value constness <| .value ·) ++
        [mark .rightBracket]
  | .null _ => [word "null"]
  | .object members _ =>
      mark .leftBrace :: members.map (child .member constness <| .member ·) ++
        [mark .rightBrace]
  | .string literal => [token literal.spelling]
  | .variable named => provided (constness = .variable) :: named.parts

/-- `ObjectField[Const] : Name : Value[?Const]` -/
def ObjectMember.parts (constness : Constness) : ObjectMember L → List (Part L)
  | .mk name value _ => [.name name, mark .colon, child .value constness (.value value)]

/-- `Argument[Const] : Name : Value[?Const]` -/
def Argument.parts (constness : Constness) (argument : Argument L) : List (Part L) :=
  [.name argument.name, mark .colon, child .value constness (.value argument.value)]

/-- `Directive[Const] : @ Name Arguments[?Const]?` -/
def Directive.parts (constness : Constness) (directive : Directive L) : List (Part L) :=
  [mark .atSign, .name directive.name] ++ Part.arguments constness directive.arguments

/-! ## Operations and fragments -/

/-- `SelectionSet : { Selection+ }` -/
def SelectionSet.parts : SelectionSet L → List (Part L)
  | .mk selections _ =>
      provided (!selections.isEmpty) :: mark .leftBrace ::
        selections.map (child .selection .variable <| .selection ·) ++ [mark .rightBrace]

def Part.selectionSet (selectionSet : SelectionSet L) : Part L :=
  child .selectionSet .variable (.selectionSet selectionSet)

/-- `Alias? : Name :` -/
def Part.aliasName : Option (Name L) → List (Part L)
  | none => []
  | some aliasName => [child .aliasName .variable (.name aliasName), mark .colon]

/-- `TypeCondition? : on NamedType` -/
def Part.typeCondition : Option (NamedType L) → List (Part L)
  | none => []
  | some type => [word "on", child .typeCondition .variable (.namedType type)]

/-- `Field : Alias? Name Arguments? Directives? SelectionSet?`

`FragmentSpread : ... FragmentName Directives?`, where `FragmentName` is any `Name` but
`on`

`InlineFragment : ... TypeCondition? Directives? SelectionSet` -/
def Selection.parts : Selection L → List (Part L)
  | .field aliasName name arguments directives selectionSet _ =>
      Part.aliasName aliasName ++ [.name name] ++ Part.arguments .variable arguments ++
        Part.directives .variable directives ++
        (selectionSet.map Part.selectionSet).toList
  | .spread name directives _ =>
      [mark .spread, provided (name.text != "on"), .name name] ++
        Part.directives .variable directives
  | .inlineFragment typeCondition directives selectionSet _ =>
      [mark .spread] ++ Part.typeCondition typeCondition ++
        Part.directives .variable directives ++ [.selectionSet selectionSet]

/-- `VariableDefinition : Variable : Type DefaultValue? Directives[Const]?` -/
def VariableDefinition.parts (definition : VariableDefinition L) : List (Part L) :=
  [child .variable .variable (.variable definition.declared), mark .colon,
    child .type .constant (.type definition.type)] ++
    Part.defaultValue definition.defaultValue ++
    Part.directives .constant definition.directives

/-- Whether the operation is nothing but a selection set. The keyword of such an
operation may be left out. -/
def OperationDefinition.isShorthand (definition : OperationDefinition L) : Bool :=
  definition.operation == .query && definition.name.isNone &&
    definition.variableDefinitions.isEmpty && definition.directives.isEmpty

/-- `OperationDefinition : SelectionSet | OperationType Name? VariableDefinitions?
Directives? SelectionSet`, where `OperationType` is `query` or `mutation` and
`VariableDefinitions : ( VariableDefinition+ )` -/
def OperationDefinition.parts (definition : OperationDefinition L) : List (Part L) :=
  let keyword := Spelling.word definition.operation.keyword
  [if definition.isShorthand then perhaps keyword else token keyword] ++
    (definition.name.map Part.name).toList ++
    inParens (definition.variableDefinitions.map
      (child .variableDefinition .variable <| .variableDefinition ·)) ++
    Part.directives .variable definition.directives ++
    [.selectionSet definition.selectionSet]

/-- `FragmentDefinition : fragment FragmentName TypeCondition Directives? SelectionSet` -/
def FragmentDefinition.parts (definition : FragmentDefinition L) : List (Part L) :=
  [word "fragment", provided (definition.name.text != "on"),
    .name definition.name, word "on",
    child .typeCondition .variable (.namedType definition.typeCondition)] ++
    Part.directives .variable definition.directives ++
    [.selectionSet definition.selectionSet]

/-! ## Type systems -/

/-- `RootOperationTypeDefinition : OperationType : NamedType` -/
def OperationTypeDefinition.parts (definition : OperationTypeDefinition L) :
    List (Part L) :=
  [word definition.operation.keyword, mark .colon,
    child .type .constant (.namedType definition.type)]

/-- `SchemaDefinition : Description? schema Directives[Const]? {
RootOperationTypeDefinition+ }` -/
def SchemaDefinition.parts (definition : SchemaDefinition L) : List (Part L) :=
  Part.description definition.description ++ [word "schema"] ++
    Part.directives .constant definition.directives ++
    (provided (!definition.operationTypes.isEmpty) :: mark .leftBrace ::
      definition.operationTypes.map
        (child .operationType .constant <| .operationTypeDefinition ·) ++
        [mark .rightBrace])

/-- `InputValueDefinition : Description? Name : Type DefaultValue? Directives[Const]?` -/
def InputValueDefinition.parts (definition : InputValueDefinition L) : List (Part L) :=
  Part.description definition.description ++
    [.name definition.name, mark .colon, child .type .constant (.type definition.type)] ++
    Part.defaultValue definition.defaultValue ++
    Part.directives .constant definition.directives

/-- `FieldDefinition : Description? Name ArgumentsDefinition? : Type
Directives[Const]?` -/
def FieldDefinition.parts (definition : FieldDefinition L) : List (Part L) :=
  Part.description definition.description ++ [.name definition.name] ++
    Part.argumentDefinitions definition.arguments ++
    [mark .colon, child .type .constant (.type definition.type)] ++
    Part.directives .constant definition.directives

/-- `ScalarTypeDefinition : Description? scalar Name Directives[Const]?` -/
def ScalarTypeDefinition.parts (definition : ScalarTypeDefinition L) : List (Part L) :=
  Part.description definition.description ++ [word "scalar", .name definition.name] ++
    Part.directives .constant definition.directives

/-- `ObjectTypeDefinition : Description? type Name ImplementsInterfaces?
Directives[Const]? FieldsDefinition?`, where `FieldsDefinition : { FieldDefinition+ }`,
and the same for interfaces with another keyword -/
def FieldedTypeDefinition.parts (keyword : String)
    (definition : FieldedTypeDefinition L) :
    List (Part L) :=
  Part.description definition.description ++ [word keyword, .name definition.name] ++
    Part.interfaces definition.interfaces ++
    Part.directives .constant definition.directives ++
    inBraces (definition.fields.map (child .field .constant <| .fieldDefinition ·))

/-- `UnionTypeDefinition : Description? union Name Directives[Const]?
UnionMemberTypes?` -/
def UnionTypeDefinition.parts (definition : UnionTypeDefinition L) : List (Part L) :=
  Part.description definition.description ++ [word "union", .name definition.name] ++
    Part.directives .constant definition.directives ++
    Part.unionMembers definition.members

/-- `EnumValueDefinition : Description? Name Directives[Const]?` -/
def EnumValueDefinition.parts (definition : EnumValueDefinition L) : List (Part L) :=
  Part.description definition.description ++ [.name definition.name] ++
    Part.directives .constant definition.directives

/-- `EnumTypeDefinition : Description? enum Name Directives[Const]?
EnumValuesDefinition?`, where `EnumValuesDefinition : { EnumValueDefinition+ }` -/
def EnumTypeDefinition.parts (definition : EnumTypeDefinition L) : List (Part L) :=
  Part.description definition.description ++ [word "enum", .name definition.name] ++
    Part.directives .constant definition.directives ++
    inBraces (definition.values.map (child .value .constant <| .enumValueDefinition ·))

/-- `InputObjectTypeDefinition : Description? input Name Directives[Const]?
InputFieldsDefinition?`, where `InputFieldsDefinition : { InputValueDefinition+ }` -/
def InputObjectTypeDefinition.parts (definition : InputObjectTypeDefinition L) :
    List (Part L) :=
  Part.description definition.description ++ [word "input", .name definition.name] ++
    Part.directives .constant definition.directives ++
    inBraces (definition.fields.map (child .field .constant <| .inputValueDefinition ·))

/-- `DirectiveLocation` -/
def directiveLocations : List String :=
  ["QUERY", "MUTATION", "FIELD", "FRAGMENT_DEFINITION", "FRAGMENT_SPREAD",
    "INLINE_FRAGMENT", "SCHEMA", "SCALAR", "OBJECT", "FIELD_DEFINITION",
    "ARGUMENT_DEFINITION", "INTERFACE", "UNION", "ENUM", "ENUM_VALUE", "INPUT_OBJECT",
    "INPUT_FIELD_DEFINITION"]

theorem isSome_ofName?_iff {text : String} :
    (DirectiveLocation.ofName? text).isSome = true ↔ text ∈ directiveLocations := by
  have names : directiveLocations = DirectiveLocation.all.map DirectiveLocation.name :=
    rfl
  simp [names, DirectiveLocation.ofName?]

/-- `DirectiveDefinition : Description? directive @ Name ArgumentsDefinition?
repeatable? on DirectiveLocations`, where
`DirectiveLocations : |? DirectiveLocation (| DirectiveLocation)*` -/
def DirectiveDefinition.parts (definition : DirectiveDefinition L) : List (Part L) :=
  Part.description definition.description ++
    [word "directive", mark .atSign, .name definition.name] ++
    Part.argumentDefinitions definition.arguments ++
    (if definition.isRepeatable then [word "repeatable"] else []) ++
    [word "on", provided (!definition.locations.isEmpty),
      provided (definition.locations.all (·.text ∈ directiveLocations))] ++
    separated .pipe (definition.locations.map (child .location .constant <| .name ·))

/-! ## Documents -/

/-- `Definition : ExecutableDefinition | TypeSystemDefinition` -/
def Definition.parts : Definition L → List (Part L)
  | .operation definition => definition.parts
  | .fragment definition => definition.parts
  | .schema definition => definition.parts
  | .scalar definition => definition.parts
  | .object definition => definition.parts "type"
  | .interface definition => definition.parts "interface"
  | .union definition => definition.parts
  | .enum definition => definition.parts
  | .inputObject definition => definition.parts
  | .directive definition => definition.parts

/-- `Document : Definition+`, between the tokens that begin and end a source -/
def Document.parts (document : Document L) : List (Part L) :=
  token (.exactly .startOfFile) :: provided (!document.definitions.isEmpty) ::
    document.definitions.map (child .definition .variable <| .definition ·) ++
    [token (.exactly .endOfFile)]

/-- What a node of any kind is written as. Only values, and what holds them, can
be told apart by whether variables are allowed. -/
def Node.parts (constness : Constness) : Node L → List (Part L)
  | .document node => node.parts
  | .definition node => node.parts
  | .variableDefinition node => node.parts
  | .operationTypeDefinition node => node.parts
  | .fieldDefinition node => node.parts
  | .inputValueDefinition node => node.parts
  | .enumValueDefinition node => node.parts
  | .selectionSet node => node.parts
  | .selection node => node.parts
  | .argument node => node.parts constness
  | .directive node => node.parts constness
  | .description node => [token node.spelling]
  | .name node => [word node.text]
  | .namedType node => [.name node.name]
  | .type node => node.parts
  | .value node => node.parts constness
  | .member node => node.parts constness
  | .variable node => node.parts

/-- Whether something has to be written for the part. -/
def Part.isSolid : Part L → Bool
  | .token _ | .child _ _ _ => true
  | .perhaps _ | .provided _ | .notBefore _ => false

theorem Node.parts_isSolid (constness : Constness) (node : Node L) :
    (node.parts constness).any Part.isSolid = true := by
  cases node with
  | definition definition =>
      cases definition <;> simp [Node.parts, Definition.parts, OperationDefinition.parts,
        FragmentDefinition.parts, SchemaDefinition.parts, ScalarTypeDefinition.parts,
        FieldedTypeDefinition.parts, UnionTypeDefinition.parts, EnumTypeDefinition.parts,
        InputObjectTypeDefinition.parts, DirectiveDefinition.parts, Part.isSolid,
        Part.selectionSet, Part.word, Part.mark]
  | selection selection =>
      cases selection <;>
        simp [Node.parts, Selection.parts, Part.isSolid, Part.name, Part.mark]
  | type type =>
      cases type <;>
        simp [Node.parts, TypeReference.parts, Part.isSolid, Part.name, Part.mark]
  | value value =>
      cases value <;>
        simp [Node.parts, Value.parts, Variable.parts, Part.isSolid, Part.word, Part.mark]
  | _ node =>
      cases node
      simp [Node.parts, Part.isSolid, Document.parts, VariableDefinition.parts,
        OperationTypeDefinition.parts, FieldDefinition.parts, InputValueDefinition.parts,
        EnumValueDefinition.parts, SelectionSet.parts, Argument.parts, Directive.parts,
        ObjectMember.parts, Variable.parts, Part.word, Part.name, Part.mark]

/-- The nodes that lie a level deeper than what is around them. -/
def Node.isNested : Node L → Bool
  | .selectionSet _ | .value (.list _ _) | .value (.object _ _)
  | .type (.list _ _) => true
  | _ => false

end GraphQL
