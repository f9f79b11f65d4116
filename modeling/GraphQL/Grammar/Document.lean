import GraphQL.Grammar.TypeSystem

/-! The grammar of documents, and what the nested parts of one are. -/

namespace GraphQL.Grammar

open Rule

/-- What begins with each keyword of a type system. -/
def definitionOfKeyword? (word : String) (constness : Constness := .constant) :
    Option (Rule (Definition Extent)) :=
  if word = "schema" then some (.schema <$> schemaDefinition constness)
  else if word = "scalar" then some (.scalar <$> scalarTypeDefinition constness)
  else if word = "type" then some (.object <$> fieldedTypeDefinition "type" constness)
  else if word = "interface"
    then some (.interface <$> fieldedTypeDefinition "interface" constness)
  else if word = "union" then some (.union <$> unionTypeDefinition constness)
  else if word = "enum" then some (.enum <$> enumTypeDefinition constness)
  else if word = "input" then some (.inputObject <$> inputObjectTypeDefinition constness)
  else if word = "directive" then some (.directive <$> directiveDefinition constness)
  else none

/-- `TypeSystemDefinition` after a description, which the current token is. The
keyword that tells what is defined comes after it. -/
def describedDefinition (constness : Constness := .constant) :
    Rule (Definition Extent) := do
  match ← peek .ahead with
  | .name word =>
      match definitionOfKeyword? word constness with
      | some definition => definition
      | none => refuse .ahead (.unexpected (.name word))
  | found => refuse .ahead (.unexpected found)

def keywordDefinition (word : String) (constness : Constness := .constant) :
    Rule (Definition Extent) :=
  if word = "query" ∨ word = "mutation" then .operation <$> operationDefinition constness
  else if word = "fragment" then .fragment <$> fragmentDefinition
  else if word = "extend" then refuse .current (.unsupported .extend)
  else if word = "subscription" then refuse .current (.unsupported .subscription)
  else (definitionOfKeyword? word constness).getD
    (refuse .current (.unexpected (.name word)))

/-- `Definition : ExecutableDefinition | TypeSystemDefinition` -/
def definition (constness : Constness := .constant) : Rule (Definition Extent) := do
  match ← peek .current with
  | .punctuator .leftBrace => .operation <$> operationDefinition constness
  | .name word => keywordDefinition word constness
  | .string _ | .blockString _ => describedDefinition constness
  | found => refuse .current (.unexpected found)

/-- `Document : Definition+`, from the beginning of the source to its end -/
def document (constness : Constness := .constant) : Rule (Document Extent) := located do
  expect .startOfFile
  let first ← definition constness
  let others ← repeatWhile (!·.isEndOfFile) (definition constness)
  expect .endOfFile
  return fun extent => ⟨first :: others, extent⟩

def alone {α : Type} (rule : Rule α) : Rule α := do
  expect .startOfFile
  let result ← rule
  expect .endOfFile
  return result

def valueAlone : Rule (Value Extent) :=
  alone (value .variable)

def typeAlone : Rule (TypeReference Extent) :=
  alone typeReference

/-- How the parts are read that lie within one another. -/
def production : (nonterminal : Nonterminal) → Rule nonterminal.Tree
  | .selectionSet => selections
  | .list constness => listValue constness
  | .object constness => objectValue constness
  | .listElement => typeReference

end GraphQL.Grammar
