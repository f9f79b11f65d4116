import GraphQL.Syntax.Directive
import GraphQL.Syntax.TypeReference

/-! Definitions of schemas, types and directives. -/

namespace GraphQL

variable {L M : Type}

/-! ## Schemas -/

/-- The type that operations of one kind begin at, as in `query: Query`. -/
structure OperationTypeDefinition (L : Type) where
  operation : OperationKind
  type : NamedType L
  location : L
  deriving DecidableEq, Repr

def OperationTypeDefinition.map (note : L → M) (definition : OperationTypeDefinition L) :
    OperationTypeDefinition M :=
  ⟨definition.operation, definition.type.map note, note definition.location⟩

structure SchemaDefinition (L : Type) where
  description : Option (StringValue L)
  directives : List (Directive L)
  operationTypes : List (OperationTypeDefinition L)
  location : L

namespace SchemaDefinition

def map (note : L → M) (definition : SchemaDefinition L) : SchemaDefinition M where
  description := definition.description.map (·.map note)
  directives := definition.directives.map (·.map note)
  operationTypes := definition.operationTypes.map (·.map note)
  location := note definition.location

/-- The type that operations of a kind begin at, by the first entry for them. -/
def rootType? (definition : SchemaDefinition L) (operation : OperationKind) :
    Option (NamedType L) :=
  (definition.operationTypes.find? (·.operation == operation)).map (·.type)

end SchemaDefinition

/-! ## Fields and arguments -/

/-- An argument of a field or directive, or a field of an input object. -/
structure InputValueDefinition (L : Type) where
  description : Option (StringValue L)
  name : Name L
  type : TypeReference L
  defaultValue : Option (Value L)
  directives : List (Directive L)
  location : L

def InputValueDefinition.map (note : L → M) (definition : InputValueDefinition L) :
    InputValueDefinition M where
  description := definition.description.map (·.map note)
  name := definition.name.map note
  type := definition.type.map note
  defaultValue := definition.defaultValue.map (·.map note)
  directives := definition.directives.map (·.map note)
  location := note definition.location

structure FieldDefinition (L : Type) where
  description : Option (StringValue L)
  name : Name L
  arguments : List (InputValueDefinition L)
  type : TypeReference L
  directives : List (Directive L)
  location : L

def FieldDefinition.map (note : L → M) (definition : FieldDefinition L) :
    FieldDefinition M where
  description := definition.description.map (·.map note)
  name := definition.name.map note
  arguments := definition.arguments.map (·.map note)
  type := definition.type.map note
  directives := definition.directives.map (·.map note)
  location := note definition.location

/-! ## Types -/

structure ScalarTypeDefinition (L : Type) where
  description : Option (StringValue L)
  name : Name L
  directives : List (Directive L)
  location : L

def ScalarTypeDefinition.map (note : L → M) (definition : ScalarTypeDefinition L) :
    ScalarTypeDefinition M where
  description := definition.description.map (·.map note)
  name := definition.name.map note
  directives := definition.directives.map (·.map note)
  location := note definition.location

/-- A type with fields. Object types and interfaces are declared alike. -/
structure FieldedTypeDefinition (L : Type) where
  description : Option (StringValue L)
  name : Name L
  interfaces : List (NamedType L)
  directives : List (Directive L)
  fields : List (FieldDefinition L)
  location : L

def FieldedTypeDefinition.map (note : L → M) (definition : FieldedTypeDefinition L) :
    FieldedTypeDefinition M where
  description := definition.description.map (·.map note)
  name := definition.name.map note
  interfaces := definition.interfaces.map (·.map note)
  directives := definition.directives.map (·.map note)
  fields := definition.fields.map (·.map note)
  location := note definition.location

structure UnionTypeDefinition (L : Type) where
  description : Option (StringValue L)
  name : Name L
  directives : List (Directive L)
  members : List (NamedType L)
  location : L

def UnionTypeDefinition.map (note : L → M) (definition : UnionTypeDefinition L) :
    UnionTypeDefinition M where
  description := definition.description.map (·.map note)
  name := definition.name.map note
  directives := definition.directives.map (·.map note)
  members := definition.members.map (·.map note)
  location := note definition.location

structure EnumValueDefinition (L : Type) where
  description : Option (StringValue L)
  name : Name L
  directives : List (Directive L)
  location : L

def EnumValueDefinition.map (note : L → M) (definition : EnumValueDefinition L) :
    EnumValueDefinition M where
  description := definition.description.map (·.map note)
  name := definition.name.map note
  directives := definition.directives.map (·.map note)
  location := note definition.location

structure EnumTypeDefinition (L : Type) where
  description : Option (StringValue L)
  name : Name L
  directives : List (Directive L)
  values : List (EnumValueDefinition L)
  location : L

def EnumTypeDefinition.map (note : L → M) (definition : EnumTypeDefinition L) :
    EnumTypeDefinition M where
  description := definition.description.map (·.map note)
  name := definition.name.map note
  directives := definition.directives.map (·.map note)
  values := definition.values.map (·.map note)
  location := note definition.location

structure InputObjectTypeDefinition (L : Type) where
  description : Option (StringValue L)
  name : Name L
  directives : List (Directive L)
  fields : List (InputValueDefinition L)
  location : L

def InputObjectTypeDefinition.map (note : L → M)
    (definition : InputObjectTypeDefinition L) :
    InputObjectTypeDefinition M where
  description := definition.description.map (·.map note)
  name := definition.name.map note
  directives := definition.directives.map (·.map note)
  fields := definition.fields.map (·.map note)
  location := note definition.location

/-! ## Directives -/

/-- The declaration of a directive. Its locations are the names of places. -/
structure DirectiveDefinition (L : Type) where
  description : Option (StringValue L)
  name : Name L
  arguments : List (InputValueDefinition L)
  isRepeatable : Bool
  locations : List (Name L)
  location : L

namespace DirectiveDefinition

def map (note : L → M) (definition : DirectiveDefinition L) : DirectiveDefinition M where
  description := definition.description.map (·.map note)
  name := definition.name.map note
  arguments := definition.arguments.map (·.map note)
  isRepeatable := definition.isRepeatable
  locations := definition.locations.map (·.map note)
  location := note definition.location

/-- The places that the directive is declared for. -/
def locationKinds (definition : DirectiveDefinition L) : List DirectiveLocation :=
  definition.locations.filterMap fun name => DirectiveLocation.ofName? name.text

end DirectiveDefinition

end GraphQL
