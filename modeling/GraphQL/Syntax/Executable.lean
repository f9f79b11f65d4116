import GraphQL.Syntax.Directive
import GraphQL.Syntax.TypeReference

/-! Operations and fragments. -/

namespace GraphQL

variable {L M : Type}

/-! ## Selections -/

mutual

/-- A block of selections, of which there is at least one. -/
inductive SelectionSet (L : Type) where
  | mk (selections : List (Selection L)) (location : L)

/-- What is selected: a field, all that a fragment selects, or a part of the
selection that holds for values of some type only. -/
inductive Selection (L : Type) where
  | field (aliasName : Option (Name L)) (name : Name L) (arguments : List (Argument L))
      (directives : List (Directive L)) (selectionSet : Option (SelectionSet L))
      (location : L)
  | spread (name : Name L) (directives : List (Directive L)) (location : L)
  | inlineFragment (typeCondition : Option (NamedType L))
      (directives : List (Directive L)) (selectionSet : SelectionSet L) (location : L)

end

mutual

def SelectionSet.map (note : L → M) : SelectionSet L → SelectionSet M
  | .mk selections location => .mk (Selection.mapAll note selections) (note location)

def SelectionSet.mapOption (note : L → M) :
    Option (SelectionSet L) → Option (SelectionSet M)
  | none => none
  | some selectionSet => some (selectionSet.map note)

def Selection.map (note : L → M) : Selection L → Selection M
  | .field aliasName name arguments directives selectionSet location =>
      .field (aliasName.map (·.map note)) (name.map note) (arguments.map (·.map note))
        (directives.map (·.map note)) (SelectionSet.mapOption note selectionSet)
          (note location)
  | .spread name directives location =>
      .spread (name.map note) (directives.map (·.map note)) (note location)
  | .inlineFragment typeCondition directives selectionSet location =>
      .inlineFragment (typeCondition.map (·.map note)) (directives.map (·.map note))
        (selectionSet.map note) (note location)

def Selection.mapAll (note : L → M) : List (Selection L) → List (Selection M)
  | [] => []
  | selection :: rest => selection.map note :: Selection.mapAll note rest

end

namespace SelectionSet

def selections : SelectionSet L → List (Selection L)
  | .mk selections _ => selections

def location : SelectionSet L → L
  | .mk _ location => location

end SelectionSet

namespace Selection

def location : Selection L → L
  | .field _ _ _ _ _ location | .spread _ _ location
  | .inlineFragment _ _ _ location => location

/-- The name that a field is returned under: its alias if it has one. -/
def responseKey? : Selection L → Option (Name L)
  | .field aliasName name _ _ _ _ => some (aliasName.getD name)
  | .spread _ _ _ | .inlineFragment _ _ _ _ => none

end Selection

/-! ## Definitions -/

/-- A variable of an operation, as in `$first: Int = 10`. -/
structure VariableDefinition (L : Type) where
  declared : Variable L
  type : TypeReference L
  defaultValue : Option (Value L)
  directives : List (Directive L)
  location : L

def VariableDefinition.map (note : L → M) (definition : VariableDefinition L) :
    VariableDefinition M where
  declared := definition.declared.map note
  type := definition.type.map note
  defaultValue := definition.defaultValue.map (·.map note)
  directives := definition.directives.map (·.map note)
  location := note definition.location

/-- An operation. A selection set alone is a query without a name. -/
structure OperationDefinition (L : Type) where
  operation : OperationKind
  name : Option (Name L)
  variableDefinitions : List (VariableDefinition L)
  directives : List (Directive L)
  selectionSet : SelectionSet L
  location : L

def OperationDefinition.map (note : L → M) (definition : OperationDefinition L) :
    OperationDefinition M where
  operation := definition.operation
  name := definition.name.map (·.map note)
  variableDefinitions := definition.variableDefinitions.map (·.map note)
  directives := definition.directives.map (·.map note)
  selectionSet := definition.selectionSet.map note
  location := note definition.location

/-- A selection that others refer to by name, which is never `on`. -/
structure FragmentDefinition (L : Type) where
  name : Name L
  typeCondition : NamedType L
  directives : List (Directive L)
  selectionSet : SelectionSet L
  location : L

def FragmentDefinition.map (note : L → M) (definition : FragmentDefinition L) :
    FragmentDefinition M where
  name := definition.name.map note
  typeCondition := definition.typeCondition.map note
  directives := definition.directives.map (·.map note)
  selectionSet := definition.selectionSet.map note
  location := note definition.location

end GraphQL
