import GraphQL.Syntax.Value

/-! Arguments and directives. -/

namespace GraphQL

variable {L M : Type}

structure Argument (L : Type) where
  name : Name L
  value : Value L
  location : L

def Argument.map (note : L → M) (argument : Argument L) : Argument M :=
  ⟨argument.name.map note, argument.value.map note, note argument.location⟩

/-- A directive with its arguments, as in `@include(if: $detailed)`. -/
structure Directive (L : Type) where
  name : Name L
  arguments : List (Argument L)
  location : L

namespace Directive

def map (note : L → M) (directive : Directive L) : Directive M :=
  ⟨directive.name.map note, directive.arguments.map (·.map note), note directive.location⟩

def argument? (directive : Directive L) (name : String) : Option (Argument L) :=
  directive.arguments.find? (·.name.text == name)

end Directive

end GraphQL
