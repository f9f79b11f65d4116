import GraphQL.Syntax.Name

/-! References to types, as in `[String!]!`. -/

namespace GraphQL

variable {L M : Type}

structure NamedType (L : Type) where
  name : Name L
  location : L
  deriving DecidableEq, Repr

def NamedType.map (note : L → M) (type : NamedType L) : NamedType M :=
  ⟨type.name.map note, note type.location⟩

/-- A reference to a type, to lists of one, or to its values other than null. -/
inductive TypeReference (L : Type) where
  | named (type : NamedType L)
  | list (inner : TypeReference L) (location : L)
  | nonNull (inner : TypeReference L) (location : L)
  deriving DecidableEq, Repr

namespace TypeReference

def map (note : L → M) : TypeReference L → TypeReference M
  | named type => named (type.map note)
  | list inner location => list (inner.map note) (note location)
  | nonNull inner location => nonNull (inner.map note) (note location)

def location : TypeReference L → L
  | named type => type.location
  | list _ location | nonNull _ location => location

/-- The name within all lists and exclamation marks. -/
def innermost : TypeReference L → NamedType L
  | named type => type
  | list inner _ | nonNull inner _ => inner.innermost

/-- Whether null is a value of the type. -/
def isNullable : TypeReference L → Bool
  | nonNull _ _ => false
  | named _ | list _ _ => true

def text : TypeReference L → String
  | named type => type.name.text
  | list inner _ => "[" ++ inner.text ++ "]"
  | nonNull inner _ => inner.text ++ "!"

end TypeReference

end GraphQL
