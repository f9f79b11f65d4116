import GraphQL.Numeric.Binary64
import GraphQL.Syntax.Name

/-! Literal values. -/

namespace GraphQL

variable {L M : Type}

/-- A string between quotes of either kind, decoded. -/
structure StringValue (L : Type) where
  value : String
  isBlock : Bool
  location : L
  deriving DecidableEq, Repr

def StringValue.map (note : L → M) (string : StringValue L) : StringValue M :=
  ⟨string.value, string.isBlock, note string.location⟩

/-- A reference to a variable, as in `$name`. -/
structure Variable (L : Type) where
  name : Name L
  location : L
  deriving DecidableEq, Repr

def Variable.map (note : L → M) (reference : Variable L) : Variable M :=
  ⟨reference.name.map note, note reference.location⟩

mutual

/-- A value, which may hold variables. Integers fit in 32 bits, and an enum value
is any name but `true`, `false` and `null`. -/
inductive Value (L : Type) where
  | boolean (value : Bool) (location : L)
  | enum (name : String) (location : L)
  | float (value : Binary64) (location : L)
  | int (value : Int) (location : L)
  | list (items : List (Value L)) (location : L)
  | null (location : L)
  | object (members : List (ObjectMember L)) (location : L)
  | string (literal : StringValue L)
  | variable (named : Variable L)

inductive ObjectMember (L : Type) where
  | mk (name : Name L) (value : Value L) (location : L)

end

mutual

def Value.map (note : L → M) : Value L → Value M
  | .boolean value location => .boolean value (note location)
  | .enum name location => .enum name (note location)
  | .float value location => .float value (note location)
  | .int value location => .int value (note location)
  | .list items location => .list (Value.mapAll note items) (note location)
  | .null location => .null (note location)
  | .object members location => .object (ObjectMember.mapAll note members) (note location)
  | .string literal => .string (literal.map note)
  | .variable named => .variable (named.map note)

def Value.mapAll (note : L → M) : List (Value L) → List (Value M)
  | [] => []
  | value :: rest => value.map note :: Value.mapAll note rest

def ObjectMember.map (note : L → M) : ObjectMember L → ObjectMember M
  | .mk name value location => .mk (name.map note) (value.map note) (note location)

def ObjectMember.mapAll (note : L → M) : List (ObjectMember L) → List (ObjectMember M)
  | [] => []
  | member :: rest => member.map note :: ObjectMember.mapAll note rest

end

mutual

/-- Whether the value holds no variable at any depth. -/
def Value.isConstant : Value L → Bool
  | .variable _ => false
  | .list items _ => Value.allConstant items
  | .object members _ => ObjectMember.allConstant members
  | .boolean _ _ | .enum _ _ | .float _ _ | .int _ _ | .null _ | .string _ => true

def Value.allConstant : List (Value L) → Bool
  | [] => true
  | value :: rest => value.isConstant && Value.allConstant rest

def ObjectMember.isConstant : ObjectMember L → Bool
  | .mk _ value _ => value.isConstant

def ObjectMember.allConstant : List (ObjectMember L) → Bool
  | [] => true
  | member :: rest => member.isConstant && ObjectMember.allConstant rest

end

namespace ObjectMember

def name : ObjectMember L → Name L
  | .mk name _ _ => name

def value : ObjectMember L → Value L
  | .mk _ value _ => value

def location : ObjectMember L → L
  | .mk _ _ location => location

end ObjectMember

namespace Value

def location : Value L → L
  | .boolean _ location | .enum _ location | .float _ location | .int _ location
  | .list _ location | .null location | .object _ location => location
  | .string literal => literal.location
  | .variable named => named.location

/-- The members of an object; other values have none. -/
def members : Value L → List (ObjectMember L)
  | .object members _ => members
  | _ => []

def member? (object : Value L) (name : String) : Option (Value L) :=
  (object.members.find? (·.name.text == name)).map ObjectMember.value

end Value

end GraphQL
