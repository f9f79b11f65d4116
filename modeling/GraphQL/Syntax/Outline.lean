import GraphQL.Syntax.Document

/-! Syntax trees seen as plain trees of nodes.

The outline of a tree says of every node what it is to the node above it. Nodes
stand in the order in which they were written. -/

namespace GraphQL

variable {L : Type}

/-- Any node of a syntax tree. -/
inductive Node (L : Type) where
  | document (node : Document L)
  | definition (node : Definition L)
  | variableDefinition (node : VariableDefinition L)
  | operationTypeDefinition (node : OperationTypeDefinition L)
  | fieldDefinition (node : FieldDefinition L)
  | inputValueDefinition (node : InputValueDefinition L)
  | enumValueDefinition (node : EnumValueDefinition L)
  | selectionSet (node : SelectionSet L)
  | selection (node : Selection L)
  | argument (node : Argument L)
  | directive (node : Directive L)
  | description (node : StringValue L)
  | name (node : Name L)
  | namedType (node : NamedType L)
  | type (node : TypeReference L)
  | value (node : Value L)
  | member (node : ObjectMember L)
  | variable (node : Variable L)

def Node.location : Node L → L
  | .document node => node.location
  | .definition node => node.location
  | .variableDefinition node => node.location
  | .operationTypeDefinition node => node.location
  | .fieldDefinition node => node.location
  | .inputValueDefinition node => node.location
  | .enumValueDefinition node => node.location
  | .selectionSet node => node.location
  | .selection node => node.location
  | .argument node => node.location
  | .directive node => node.location
  | .description node => node.location
  | .name node => node.location
  | .namedType node => node.location
  | .type node => node.location
  | .value node => node.location
  | .member node => node.location
  | .variable node => node.location

inductive Role where
  | aliasName
  | argument
  | default
  | definition
  | description
  | directive
  | document
  | field
  | inner
  | interface
  | location
  | member
  | name
  | operationType
  | selection
  | selectionSet
  | type
  | typeCondition
  | value
  | variable
  | variableDefinition
  deriving DecidableEq, Repr

/-- A node with its role and the nodes below it. -/
inductive Outline (L : Type) where
  | mk (role : Role) (node : Node L) (children : List (Outline L))

/-- A node in the list of all nodes, with the number of nodes above it. -/
structure OutlineRow (L : Type) where
  depth : Nat
  role : Role
  node : Node L

mutual

/-- All nodes, each before those below it. -/
def Outline.rows (depth : Nat) : Outline L → List (OutlineRow L)
  | .mk role node children =>
      ⟨depth, role, node⟩ :: Outline.rowsOfAll (depth + 1) children

def Outline.rowsOfAll (depth : Nat) : List (Outline L) → List (OutlineRow L)
  | [] => []
  | child :: rest => child.rows depth ++ Outline.rowsOfAll depth rest

end

/-! ## Names, types and values -/

def Name.outline (role : Role) (name : Name L) : Outline L :=
  .mk role (.name name) []

def NamedType.outline (role : Role) (type : NamedType L) : Outline L :=
  .mk role (.namedType type) [type.name.outline .name]

def TypeReference.outline (role : Role) : TypeReference L → Outline L
  | .named type => .mk role (.type (.named type)) [type.name.outline .name]
  | .list inner location => .mk role (.type (.list inner location)) [inner.outline .inner]
  | .nonNull inner location =>
      .mk role (.type (.nonNull inner location)) [inner.outline .inner]

def StringValue.outline (role : Role) (string : StringValue L) : Outline L :=
  .mk role (.description string) []

def Variable.outline (role : Role) (reference : Variable L) : Outline L :=
  .mk role (.variable reference) [reference.name.outline .name]

mutual

def Value.outline (role : Role) : Value L → Outline L
  | .list items location =>
      .mk role (.value (.list items location)) (Value.outlines items)
  | .object members location =>
      .mk role (.value (.object members location)) (ObjectMember.outlines members)
  | .variable named => .mk role (.value (.variable named)) [named.name.outline .name]
  | .boolean value location => .mk role (.value (.boolean value location)) []
  | .enum name location => .mk role (.value (.enum name location)) []
  | .float value location => .mk role (.value (.float value location)) []
  | .int value location => .mk role (.value (.int value location)) []
  | .null location => .mk role (.value (.null location)) []
  | .string literal => .mk role (.value (.string literal)) []

def Value.outlines : List (Value L) → List (Outline L)
  | [] => []
  | item :: rest => item.outline .value :: Value.outlines rest

def ObjectMember.outline : ObjectMember L → Outline L
  | .mk name value location =>
      .mk .member (.member (.mk name value location))
        [name.outline .name, value.outline .value]

def ObjectMember.outlines : List (ObjectMember L) → List (Outline L)
  | [] => []
  | member :: rest => member.outline :: ObjectMember.outlines rest

end

def Argument.outline (argument : Argument L) : Outline L :=
  .mk .argument (.argument argument) [argument.name.outline .name,
    argument.value.outline .value]

def Directive.outline (directive : Directive L) : Outline L :=
  .mk .directive (.directive directive)
    (directive.name.outline .name :: directive.arguments.map Argument.outline)

/-! ## Operations and fragments -/

mutual

def SelectionSet.outline : SelectionSet L → Outline L
  | .mk selections location =>
      .mk .selectionSet (.selectionSet (.mk selections location))
        (Selection.outlines selections)

def SelectionSet.outlineOption : Option (SelectionSet L) → List (Outline L)
  | none => []
  | some selectionSet => [selectionSet.outline]

def Selection.outline : Selection L → Outline L
  | .field aliasName name arguments directives selectionSet location =>
      .mk .selection
        (.selection (.field aliasName name arguments directives selectionSet location))
        ((aliasName.map (·.outline .aliasName)).toList ++ [name.outline .name] ++
          arguments.map Argument.outline ++ directives.map Directive.outline ++
          SelectionSet.outlineOption selectionSet)
  | .spread name directives location =>
      .mk .selection (.selection (.spread name directives location))
        (name.outline .name :: directives.map Directive.outline)
  | .inlineFragment typeCondition directives selectionSet location =>
      .mk .selection
        (.selection (.inlineFragment typeCondition directives selectionSet location))
        ((typeCondition.map (·.outline .typeCondition)).toList ++
          directives.map Directive.outline ++ [selectionSet.outline])

def Selection.outlines : List (Selection L) → List (Outline L)
  | [] => []
  | selection :: rest => selection.outline :: Selection.outlines rest

end

def VariableDefinition.outline (definition : VariableDefinition L) : Outline L :=
  .mk .variableDefinition (.variableDefinition definition)
    ([definition.declared.outline .variable, definition.type.outline .type] ++
      (definition.defaultValue.map (·.outline .default)).toList ++
      definition.directives.map Directive.outline)

def OperationDefinition.outline (definition : OperationDefinition L) : Outline L :=
  .mk .definition (.definition (.operation definition))
    ((definition.name.map (·.outline .name)).toList ++
      definition.variableDefinitions.map VariableDefinition.outline ++
      definition.directives.map Directive.outline ++ [definition.selectionSet.outline])

def FragmentDefinition.outline (definition : FragmentDefinition L) : Outline L :=
  .mk .definition (.definition (.fragment definition))
    ([definition.name.outline .name, definition.typeCondition.outline .typeCondition] ++
      definition.directives.map Directive.outline ++ [definition.selectionSet.outline])

/-! ## Type systems -/

def descriptionOutline (description : Option (StringValue L)) : List (Outline L) :=
  (description.map (·.outline .description)).toList

def OperationTypeDefinition.outline
    (definition : OperationTypeDefinition L) : Outline L :=
  .mk .operationType (.operationTypeDefinition definition) [definition.type.outline .type]

def SchemaDefinition.outline (definition : SchemaDefinition L) : Outline L :=
  .mk .definition (.definition (.schema definition))
    (descriptionOutline definition.description ++
      definition.directives.map Directive.outline ++
      definition.operationTypes.map OperationTypeDefinition.outline)

def InputValueDefinition.outline (role : Role) (definition : InputValueDefinition L) :
    Outline L :=
  .mk role (.inputValueDefinition definition)
    (descriptionOutline definition.description ++
      [definition.name.outline .name, definition.type.outline .type] ++
      (definition.defaultValue.map (·.outline .default)).toList ++
      definition.directives.map Directive.outline)

def FieldDefinition.outline (definition : FieldDefinition L) : Outline L :=
  .mk .field (.fieldDefinition definition)
    (descriptionOutline definition.description ++ [definition.name.outline .name] ++
      definition.arguments.map (·.outline .argument) ++ [definition.type.outline .type] ++
      definition.directives.map Directive.outline)

def EnumValueDefinition.outline (definition : EnumValueDefinition L) : Outline L :=
  .mk .value (.enumValueDefinition definition)
    (descriptionOutline definition.description ++ [definition.name.outline .name] ++
      definition.directives.map Directive.outline)

def FieldedTypeDefinition.outlines (definition : FieldedTypeDefinition L) :
    List (Outline L) :=
  descriptionOutline definition.description ++ [definition.name.outline .name] ++
    definition.interfaces.map (·.outline .interface) ++
    definition.directives.map Directive.outline ++
    definition.fields.map FieldDefinition.outline

/-- The nodes of a definition, apart from itself. -/
def Definition.outline : Definition L → Outline L
  | .operation definition => definition.outline
  | .fragment definition => definition.outline
  | .schema definition => definition.outline
  | .scalar definition =>
      .mk .definition (.definition (.scalar definition))
        (descriptionOutline definition.description ++ [definition.name.outline .name] ++
          definition.directives.map Directive.outline)
  | .object definition =>
      .mk .definition (.definition (.object definition)) definition.outlines
  | .interface definition =>
      .mk .definition (.definition (.interface definition)) definition.outlines
  | .union definition =>
      .mk .definition (.definition (.union definition))
        (descriptionOutline definition.description ++ [definition.name.outline .name] ++
          definition.directives.map Directive.outline ++
          definition.members.map (·.outline .member))
  | .enum definition =>
      .mk .definition (.definition (.enum definition))
        (descriptionOutline definition.description ++ [definition.name.outline .name] ++
          definition.directives.map Directive.outline ++
          definition.values.map EnumValueDefinition.outline)
  | .inputObject definition =>
      .mk .definition (.definition (.inputObject definition))
        (descriptionOutline definition.description ++ [definition.name.outline .name] ++
          definition.directives.map Directive.outline ++
          definition.fields.map (·.outline .field))
  | .directive definition =>
      .mk .definition (.definition (.directive definition))
        (descriptionOutline definition.description ++ [definition.name.outline .name] ++
          definition.arguments.map (·.outline .argument) ++
          definition.locations.map (·.outline .location))

/-! ## Whole trees -/

def Document.outline (document : Document L) : Outline L :=
  .mk .document (.document document) (document.definitions.map Definition.outline)

/-- All nodes of a document, in the order in which they begin. -/
def Document.rows (document : Document L) : List (OutlineRow L) :=
  document.outline.rows 0

def Value.rows (value : Value L) : List (OutlineRow L) :=
  (value.outline .value).rows 0

def TypeReference.rows (type : TypeReference L) : List (OutlineRow L) :=
  (type.outline .type).rows 0

end GraphQL
