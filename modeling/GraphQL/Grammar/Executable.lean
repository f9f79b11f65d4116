import GraphQL.Grammar.Value

/-! The grammar of operations and fragments. -/

namespace GraphQL.Grammar

open Rule

/-! ## Selections -/

/-- `SelectionSet : { Selection+ }`, one level deeper -/
def selectionSet : Rule (SelectionSet Extent) :=
  nested .selectionSet

/-- `Alias? Name`. Only after the first name is it seen which of the two it is. -/
def aliasAndName : Rule (Option (Name Extent) × Name Extent) := do
  let first ← name
  if ← optionalMark .colon then return (some first, ← name) else return (none, first)

/-- `Field : Alias? Name Arguments? Directives SelectionSet?` -/
def field : Rule (Selection Extent) := located do
  let (aliasName, name) ← aliasAndName
  let arguments ← arguments .variable
  let directives ← directives .variable
  let selections ← optional (← atMark .leftBrace) selectionSet
  return fun extent => .field aliasName name arguments directives selections extent

/-- `FragmentName : Name` but not `on` -/
def fragmentName : Rule (Name Extent) := do
  if (← peek .current).isKeyword "on" then refuse .current (.reservedName "on") else name

/-- `FragmentSpread : ... FragmentName Directives`, or
`InlineFragment : ... (on NamedType)? Directives SelectionSet` -/
def spread : Rule (Selection Extent) := located do
  mark .spread
  let conditional ← optionalKeyword "on"
  if !conditional && (← peek .current).kind == .name then
    let name ← fragmentName
    let directives ← directives .variable
    return fun extent => .spread name directives extent
  else
    let typeCondition ← optional conditional namedType
    let directives ← directives .variable
    let selections ← selectionSet
    return fun extent => .inlineFragment typeCondition directives selections extent

def selection : Rule (Selection Extent) := do
  if ← atMark .spread then spread else field

def selections : Rule (SelectionSet Extent) := located do
  let selections ← many .leftBrace selection .rightBrace
  return fun extent => .mk selections extent

/-! ## Definitions -/

/-- `OperationType : query | mutation`. Any name is taken before it is judged. -/
def operationType : Rule OperationKind := do
  match ← peek .current with
  | .name word =>
      advance
      match OperationKind.ofKeyword? word with
      | some operation => return operation
      | none =>
          if word = "subscription" then refuse .last (.unsupported .subscription)
          else refuse .last (.unexpected (.name word))
  | found => refuse .current (.expected .name found)

def variableDefinition (constness : Constness := .constant) :
    Rule (VariableDefinition Extent) := located do
  let declared ← variableReference
  mark .colon
  let type ← typeReference
  let defaultValue ← defaultValue constness
  let directives ← directives constness
  return fun extent => ⟨declared, type, defaultValue, directives, extent⟩

def operationDefinition (constness : Constness := .constant) :
    Rule (OperationDefinition Extent) := located do
  if ← atMark .leftBrace then
    let selections ← selectionSet
    return fun extent => ⟨.query, none, [], [], selections, extent⟩
  else
    let operation ← operationType
    let name ← optional ((← peek .current).kind == .name) name
    let declared ← optionalMany .leftParen (variableDefinition constness) .rightParen
    let directives ← directives .variable
    let selections ← selectionSet
    return fun extent => ⟨operation, name, declared, directives, selections, extent⟩

def fragmentDefinition : Rule (FragmentDefinition Extent) := located do
  keyword "fragment"
  let name ← fragmentName
  keyword "on"
  let typeCondition ← namedType
  let directives ← directives .variable
  let selections ← selectionSet
  return fun extent => ⟨name, typeCondition, directives, selections, extent⟩

end GraphQL.Grammar
