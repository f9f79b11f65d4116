import GraphQL.Grammar.Rule

/-! The grammar of names, types, values and directives.

Values may hold variables, or they are constants. What is always read as a constant has
this for a parameter nonetheless, which nothing but `.constant` is given: the grammar that
would allow variables there differs in it alone. -/

namespace GraphQL.Grammar

open Rule

/-! ## Names and types -/

def name : Rule (Name Extent) := located do
  match ← peek .current with
  | .name text =>
      advance
      return fun extent => ⟨text, extent⟩
  | found => refuse .current (.expected .name found)

def namedType : Rule (NamedType Extent) := located do
  let name ← name
  return fun extent => ⟨name, extent⟩

/-- `ListType : [ Type ]`, or a named type. The type in brackets lies one level
deeper, which is noticed only after the opening bracket. -/
def nullableType : Rule (TypeReference Extent) := do
  if ← atMark .leftBracket then
    located do
      mark .leftBracket
      let inner ← nested .listElement
      mark .rightBracket
      return fun extent => .list inner extent
  else return .named (← namedType)

def typeReference : Rule (TypeReference Extent) := located do
  let type ← nullableType
  if ← optionalMark .bang then return fun extent => .nonNull type extent
  else return fun _ => type

/-! ## Values -/

def variableReference : Rule (Variable Extent) := located do
  mark .dollar
  let name ← name
  return fun extent => ⟨name, extent⟩

/-- Takes a string of either kind, which the current token must be. -/
def stringValue : Rule (StringValue Extent) := located do
  match ← peek .current with
  | .string value =>
      advance
      return fun extent => ⟨value, false, extent⟩
  | .blockString value =>
      advance
      return fun extent => ⟨value, true, extent⟩
  | found => refuse .current (.unexpected found)

/-- Takes the literal of a number. Only then is it seen whether there is such a number. -/
def numberValue (fits : Bool) (value : Extent → Value Extent) (fault : GrammarFault) :
    Rule (Value Extent) := located do
  advance
  if fits then return value else refuse .last fault

/-- An integer literal, if it spells an integer that fits in 32 bits. -/
def integerValue (literal : String) : Rule (Value Extent) :=
  let number := signedValue literal.toList
  numberValue (Decimal.isInteger literal.toList && isInt32 number) (.int number)
    (.integerOutOfRange literal)

/-- A literal with a fraction or an exponent, if it spells a number. -/
def floatValue (literal : String) : Rule (Value Extent) :=
  numberValue (Decimal.isLiteral literal.toList) (.float (.ofLiteral literal.toList))
    (.notFloat literal)

def valueOfName (text : String) (extent : Extent) : Value Extent :=
  if text = "true" then .boolean true extent
  else if text = "false" then .boolean false extent
  else if text = "null" then .null extent
  else .enum text extent

def plainValue (value : Extent → Value Extent) : Rule (Value Extent) := located do
  advance
  return value

/-- Blames a dollar sign where only constants fit. Before a name it is a variable,
else it is just out of place. -/
def refuseVariable : Rule (Value Extent) := do
  match ← peek .ahead with
  | .name text => refuse .current (.variableInConstant text)
  | _ => refuse .current (.unexpected (.punctuator .dollar))

/-- `Value`, with variables or without -/
def value (constness : Constness) : Rule (Value Extent) := do
  match ← peek .current with
  | .punctuator .leftBracket => nested (.list constness)
  | .punctuator .leftBrace => nested (.object constness)
  | .punctuator .dollar =>
      match constness with
      | .constant => refuseVariable
      | .variable => return .variable (← variableReference)
  | .integer literal => integerValue literal
  | .float literal => floatValue literal
  | .string _ | .blockString _ => return .string (← stringValue)
  | .name text => plainValue (valueOfName text)
  | found => refuse .current (.unexpected found)

def listValue (constness : Constness) : Rule (Value Extent) := located do
  let items ← any .leftBracket (value constness) .rightBracket
  return fun extent => .list items extent

def objectMember (constness : Constness) : Rule (ObjectMember Extent) := located do
  let name ← name
  mark .colon
  let value ← value constness
  return fun extent => .mk name value extent

def objectValue (constness : Constness) : Rule (Value Extent) := located do
  let members ← any .leftBrace (objectMember constness) .rightBrace
  return fun extent => .object members extent

def defaultValue (constness : Constness := .constant) : Rule (Option (Value Extent)) := do
  optional (← optionalMark .equals) (value constness)

/-! ## Arguments and directives -/

def argument (constness : Constness) : Rule (Argument Extent) := located do
  let name ← name
  mark .colon
  let value ← value constness
  return fun extent => ⟨name, value, extent⟩

def arguments (constness : Constness) : Rule (List (Argument Extent)) :=
  optionalMany .leftParen (argument constness) .rightParen

def directive (constness : Constness) : Rule (Directive Extent) := located do
  mark .atSign
  let name ← name
  let arguments ← arguments constness
  return fun extent => ⟨name, arguments, extent⟩

def directives (constness : Constness) : Rule (List (Directive Extent)) :=
  repeatWhile (· == .punctuator .atSign) (directive constness)

end GraphQL.Grammar
