import GraphQL.Syntax.Executable
import GraphQL.Syntax.TypeSystem

/-! Whole documents. -/

namespace GraphQL

variable {L M : Type}

inductive Definition (L : Type) where
  | operation (definition : OperationDefinition L)
  | fragment (definition : FragmentDefinition L)
  | schema (definition : SchemaDefinition L)
  | scalar (definition : ScalarTypeDefinition L)
  | object (definition : FieldedTypeDefinition L)
  | interface (definition : FieldedTypeDefinition L)
  | union (definition : UnionTypeDefinition L)
  | enum (definition : EnumTypeDefinition L)
  | inputObject (definition : InputObjectTypeDefinition L)
  | directive (definition : DirectiveDefinition L)

namespace Definition

def map (note : L → M) : Definition L → Definition M
  | operation definition => operation (definition.map note)
  | fragment definition => fragment (definition.map note)
  | schema definition => schema (definition.map note)
  | scalar definition => scalar (definition.map note)
  | object definition => object (definition.map note)
  | interface definition => interface (definition.map note)
  | union definition => union (definition.map note)
  | enum definition => enum (definition.map note)
  | inputObject definition => inputObject (definition.map note)
  | directive definition => directive (definition.map note)

def location : Definition L → L
  | operation definition => definition.location
  | fragment definition => definition.location
  | schema definition => definition.location
  | scalar definition => definition.location
  | object definition => definition.location
  | interface definition => definition.location
  | union definition => definition.location
  | enum definition => definition.location
  | inputObject definition => definition.location
  | directive definition => definition.location

/-- Operations and fragments can be executed; the rest describes a schema. -/
def isExecutable : Definition L → Bool
  | operation _ | fragment _ => true
  | schema _ | scalar _ | object _ | interface _ | union _ | enum _ | inputObject _
  | directive _ => false

/-- The name defined. Schemas have none, and operations need none. -/
def name? : Definition L → Option (Name L)
  | operation definition => definition.name
  | fragment definition => some definition.name
  | schema _ => none
  | scalar definition => some definition.name
  | object definition => some definition.name
  | interface definition => some definition.name
  | union definition => some definition.name
  | enum definition => some definition.name
  | inputObject definition => some definition.name
  | directive definition => some definition.name

/-- The directives applied to the definition itself. The declaration of a
directive takes none. -/
def directives : Definition L → List (Directive L)
  | operation definition => definition.directives
  | fragment definition => definition.directives
  | schema definition => definition.directives
  | scalar definition => definition.directives
  | object definition => definition.directives
  | interface definition => definition.directives
  | union definition => definition.directives
  | enum definition => definition.directives
  | inputObject definition => definition.directives
  | directive _ => []

end Definition

/-- A document, which has at least one definition. -/
structure Document (L : Type) where
  definitions : List (Definition L)
  location : L

namespace Document

def map (note : L → M) (document : Document L) : Document M :=
  ⟨document.definitions.map (·.map note), note document.location⟩

def operations (document : Document L) : List (OperationDefinition L) :=
  document.definitions.filterMap fun
    | .operation definition => some definition
    | _ => none

def fragments (document : Document L) : List (FragmentDefinition L) :=
  document.definitions.filterMap fun
    | .fragment definition => some definition
    | _ => none

def typeSystemDefinitions (document : Document L) : List (Definition L) :=
  document.definitions.filter (!·.isExecutable)

def fragment? (document : Document L) (name : String) : Option (FragmentDefinition L) :=
  document.fragments.find? (·.name.text == name)

end Document

end GraphQL
