import GraphQL.Grammar.Executable

/-! The grammar of schemas, types and directive declarations. -/

namespace GraphQL.Grammar

open Rule

def isString (lexeme : Lexeme) : Bool :=
  lexeme.kind == .string || lexeme.kind == .blockString

/-- `Description : StringValue`, if it is there -/
def description : Rule (Option (StringValue Extent)) := do
  optional (isString (← peek .current)) stringValue

def operationTypeDefinition : Rule (OperationTypeDefinition Extent) := located do
  let operation ← operationType
  mark .colon
  let type ← namedType
  return fun extent => ⟨operation, type, extent⟩

def schemaDefinition (constness : Constness := .constant) :
    Rule (SchemaDefinition Extent) := located do
  let description ← description
  keyword "schema"
  let directives ← directives constness
  let operationTypes ← many .leftBrace operationTypeDefinition .rightBrace
  return fun extent => ⟨description, directives, operationTypes, extent⟩

/-! ## Fields and arguments -/

def inputValueDefinition (constness : Constness := .constant) :
    Rule (InputValueDefinition Extent) := located do
  let description ← description
  let name ← name
  mark .colon
  let type ← typeReference
  let defaultValue ← defaultValue constness
  let directives ← directives constness
  return fun extent => ⟨description, name, type, defaultValue, directives, extent⟩

def argumentDefinitions (constness : Constness := .constant) :
    Rule (List (InputValueDefinition Extent)) :=
  optionalMany .leftParen (inputValueDefinition constness) .rightParen

def fieldDefinition (constness : Constness := .constant) :
    Rule (FieldDefinition Extent) := located do
  let description ← description
  let name ← name
  let arguments ← argumentDefinitions constness
  mark .colon
  let type ← typeReference
  let directives ← directives constness
  return fun extent => ⟨description, name, arguments, type, directives, extent⟩

/-! ## Types -/

def scalarTypeDefinition (constness : Constness := .constant) :
    Rule (ScalarTypeDefinition Extent) := located do
  let description ← description
  keyword "scalar"
  let name ← name
  let directives ← directives constness
  return fun extent => ⟨description, name, directives, extent⟩

def interfaces : Rule (List (NamedType Extent)) := do
  if ← optionalKeyword "implements" then separated .ampersand namedType else return []

def fieldedTypeDefinition (word : String) (constness : Constness := .constant) :
    Rule (FieldedTypeDefinition Extent) := located do
  let description ← description
  keyword word
  let name ← name
  let interfaces ← interfaces
  let directives ← directives constness
  let fields ← optionalMany .leftBrace (fieldDefinition constness) .rightBrace
  return fun extent => ⟨description, name, interfaces, directives, fields, extent⟩

def unionMembers : Rule (List (NamedType Extent)) := do
  if ← optionalMark .equals then separated .pipe namedType else return []

def unionTypeDefinition (constness : Constness := .constant) :
    Rule (UnionTypeDefinition Extent) := located do
  let description ← description
  keyword "union"
  let name ← name
  let directives ← directives constness
  let members ← unionMembers
  return fun extent => ⟨description, name, directives, members, extent⟩

def enumValueDefinition (constness : Constness := .constant) :
    Rule (EnumValueDefinition Extent) := located do
  let description ← description
  let name ← name
  let directives ← directives constness
  return fun extent => ⟨description, name, directives, extent⟩

def enumTypeDefinition (constness : Constness := .constant) :
    Rule (EnumTypeDefinition Extent) := located do
  let description ← description
  keyword "enum"
  let name ← name
  let directives ← directives constness
  let values ← optionalMany .leftBrace (enumValueDefinition constness) .rightBrace
  return fun extent => ⟨description, name, directives, values, extent⟩

def inputObjectTypeDefinition (constness : Constness := .constant) :
    Rule (InputObjectTypeDefinition Extent) := located do
  let description ← description
  keyword "input"
  let name ← name
  let directives ← directives constness
  let fields ← optionalMany .leftBrace (inputValueDefinition constness) .rightBrace
  return fun extent => ⟨description, name, directives, fields, extent⟩

/-! ## Directives -/

/-- `DirectiveLocation`, the name of a place. Any name is taken before it is judged. -/
def directiveLocation : Rule (Name Extent) := do
  let name ← name
  match DirectiveLocation.ofName? name.text with
  | some _ => return name
  | none => refuse .last (.unknownDirectiveLocation name.text)

def directiveDefinition (constness : Constness := .constant) :
    Rule (DirectiveDefinition Extent) := located do
  let description ← description
  keyword "directive"
  mark .atSign
  let name ← name
  let arguments ← argumentDefinitions constness
  let isRepeatable ← optionalKeyword "repeatable"
  keyword "on"
  let locations ← separated .pipe directiveLocation
  return fun extent => ⟨description, name, arguments, isRepeatable, locations, extent⟩

end GraphQL.Grammar
