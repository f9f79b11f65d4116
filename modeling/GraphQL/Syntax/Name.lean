/-! Names, and the places they are declared for.

Every node of a syntax tree carries a note of type `L` on where it was written. The
trees are built with token numbers for notes; `map` turns those into anything else,
and forgets them when it turns them into nothing. -/

namespace GraphQL

variable {L M : Type}

structure Name (L : Type) where
  text : String
  location : L
  deriving DecidableEq, Repr

def Name.map (note : L → M) (name : Name L) : Name M :=
  ⟨name.text, note name.location⟩

/-! ## Operations -/

inductive OperationKind where
  | query
  | mutation
  deriving DecidableEq, Repr

namespace OperationKind

def keyword : OperationKind → String
  | query => "query"
  | mutation => "mutation"

def ofKeyword? (word : String) : Option OperationKind :=
  [query, mutation].find? (·.keyword == word)

end OperationKind

/-! ## Places for directives -/

/-- The places that a directive may be declared for. -/
inductive DirectiveLocation where
  | query
  | mutation
  | field
  | fragmentDefinition
  | fragmentSpread
  | inlineFragment
  | schema
  | scalar
  | object
  | fieldDefinition
  | argumentDefinition
  | interface
  | union
  | enum
  | enumValue
  | inputObject
  | inputFieldDefinition
  deriving DecidableEq, Repr

namespace DirectiveLocation

def all : List DirectiveLocation :=
  [query, mutation, field, fragmentDefinition, fragmentSpread, inlineFragment,
    schema, scalar,
    object, fieldDefinition, argumentDefinition, interface, union, enum,
      enumValue, inputObject,
    inputFieldDefinition]

def name : DirectiveLocation → String
  | query => "QUERY"
  | mutation => "MUTATION"
  | field => "FIELD"
  | fragmentDefinition => "FRAGMENT_DEFINITION"
  | fragmentSpread => "FRAGMENT_SPREAD"
  | inlineFragment => "INLINE_FRAGMENT"
  | schema => "SCHEMA"
  | scalar => "SCALAR"
  | object => "OBJECT"
  | fieldDefinition => "FIELD_DEFINITION"
  | argumentDefinition => "ARGUMENT_DEFINITION"
  | interface => "INTERFACE"
  | union => "UNION"
  | enum => "ENUM"
  | enumValue => "ENUM_VALUE"
  | inputObject => "INPUT_OBJECT"
  | inputFieldDefinition => "INPUT_FIELD_DEFINITION"

def ofName? (name : String) : Option DirectiveLocation :=
  all.find? (·.name == name)

def isExecutable : DirectiveLocation → Bool
  | query | mutation | field | fragmentDefinition | fragmentSpread
  | inlineFragment => true
  | _ => false

end DirectiveLocation

end GraphQL
