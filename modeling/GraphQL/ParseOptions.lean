import GraphQL.Json
import GraphQL.Json.Token
import GraphQL.Numeric.Decimal

/-! How to parse, and how a configuration file says so. -/

namespace GraphQL

structure ParseOptions where
  /-- Leave the spans out of the tree. -/
  noLocation : Bool := false
  /-- How many selection sets, lists, objects and list types may lie within one
  another. -/
  maxNestingDepth : Nat := 64
  deriving DecidableEq, Repr

namespace ParseOptions

/-! ## Writing -/

def toJson (options : ParseOptions) : Json :=
  .object [("no_location", .boolean options.noLocation),
    ("max_nesting_depth", .integer options.maxNestingDepth)]

/-! ## Reading

Every member may be left out, members that are not known are passed over, and no
known one may be given twice. -/

def depthLimit : Nat := 0xFFFFFFFFFFFFFFFF

structure Given where
  noLocation : Option Bool := none
  maxNestingDepth : Option Nat := none

/-- The number that a literal of digits alone spells, if it is a depth. -/
def depthOfLiteral? (literal : String) : Option Nat :=
  if literal.toList.all Char.isDigit && digitsValue literal.toList ≤ depthLimit then
    some (digitsValue literal.toList)
  else none

def giveNoLocation? (given : Given) : JsonToken → Option Given
  | .boolean value =>
      if given.noLocation.isSome then none
        else some { given with noLocation := some value }
  | _ => none

def giveDepth? (given : Given) : JsonToken → Option Given
  | .number literal =>
      if given.maxNestingDepth.isSome then none
      else (depthOfLiteral? literal).map fun depth =>
        { given with maxNestingDepth := some depth }
  | _ => none

def giveMember? (given : Given) : Option String × JsonToken → Option Given
  | (none, _) => none
  | (some key, value) =>
      if key = "no_location" then giveNoLocation? given value
      else if key = "max_nesting_depth" then giveDepth? given value
      else some given

/-- Takes the members in order from a list, which may end early. -/
def giveItems? : List JsonToken → Option Given
  | [] => some {}
  | [first] => giveNoLocation? {} first
  | [first, second] => do giveDepth? (← giveNoLocation? {} first) second
  | _ => none

def ofGiven (given : Given) : ParseOptions :=
  let usual : ParseOptions := {}
  ⟨given.noLocation.getD usual.noLocation,
    given.maxNestingDepth.getD usual.maxNestingDepth⟩

def ofJson? (text : String) : Option ParseOptions := do
  let tokens ← JsonToken.ofText? text
  let inner ← JsonToken.outermost? .start tokens
  match tokens.head? with
  | some .openBrace => return ofGiven (← (JsonToken.members inner).foldlM giveMember? {})
  | some .openBracket => return ofGiven (← giveItems? (JsonToken.items inner))
  | _ => none

end ParseOptions

end GraphQL
