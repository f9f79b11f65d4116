import GraphQL.Syntax.Document

/-! Comparing syntax trees.

Trees are compared node by node, together with the notes on where the nodes were
read. Numbers are compared by value, so the two floating-point zeros are alike. -/

namespace GraphQL

variable {L : Type} [BEq L]

/-! ## Values -/

instance : BEq (Name L) where
  beq first second := first.text == second.text && first.location == second.location

deriving instance BEq for NamedType
deriving instance BEq for TypeReference
deriving instance BEq for StringValue
deriving instance BEq for Variable

mutual

def Value.same : Value L → Value L → Bool
  | .boolean first place, .boolean second other => first == second && place == other
  | .enum first place, .enum second other => first == second && place == other
  | .float first place, .float second other => first == second && place == other
  | .int first place, .int second other => first == second && place == other
  | .list first place, .list second other => Value.allSame first second && place == other
  | .null place, .null other => place == other
  | .object first place, .object second other =>
      ObjectMember.allSame first second && place == other
  | .string first, .string second => first == second
  | .variable first, .variable second => first == second
  | _, _ => false

def Value.allSame : List (Value L) → List (Value L) → Bool
  | [], [] => true
  | first :: rest, second :: others => first.same second && Value.allSame rest others
  | _, _ => false

def ObjectMember.same : ObjectMember L → ObjectMember L → Bool
  | .mk first value place, .mk second another other =>
      first == second && value.same another && place == other

def ObjectMember.allSame : List (ObjectMember L) → List (ObjectMember L) → Bool
  | [], [] => true
  | first :: rest, second :: others =>
      first.same second && ObjectMember.allSame rest others
  | _, _ => false

end

instance : BEq (Value L) := ⟨Value.same⟩

deriving instance BEq for Argument
deriving instance BEq for Directive

/-! ## Operations and fragments -/

mutual

def SelectionSet.same : SelectionSet L → SelectionSet L → Bool
  | .mk first place, .mk second other => Selection.allSame first second && place == other

def SelectionSet.sameOption : Option (SelectionSet L) → Option (SelectionSet L) → Bool
  | none, none => true
  | some first, some second => first.same second
  | _, _ => false

def Selection.same : Selection L → Selection L → Bool
  | .field aliasName name arguments directives selections place,
    .field aliasName' name' arguments' directives' selections' other =>
      aliasName == aliasName' && name == name' && arguments == arguments' &&
        directives == directives' && SelectionSet.sameOption selections selections' &&
        place == other
  | .spread name directives place, .spread name' directives' other =>
      name == name' && directives == directives' && place == other
  | .inlineFragment condition directives selections place,
    .inlineFragment condition' directives' selections' other =>
      condition == condition' && directives == directives' && selections.same
        selections' &&
        place == other
  | _, _ => false

def Selection.allSame : List (Selection L) → List (Selection L) → Bool
  | [], [] => true
  | first :: rest, second :: others => first.same second && Selection.allSame rest others
  | _, _ => false

end

instance : BEq (SelectionSet L) := ⟨SelectionSet.same⟩

instance : BEq (Selection L) := ⟨Selection.same⟩

deriving instance BEq for VariableDefinition
deriving instance BEq for OperationDefinition
deriving instance BEq for FragmentDefinition

/-! ## Type systems -/

deriving instance BEq for OperationTypeDefinition
deriving instance BEq for SchemaDefinition
deriving instance BEq for InputValueDefinition
deriving instance BEq for FieldDefinition
deriving instance BEq for ScalarTypeDefinition
deriving instance BEq for FieldedTypeDefinition
deriving instance BEq for UnionTypeDefinition
deriving instance BEq for EnumValueDefinition
deriving instance BEq for EnumTypeDefinition
deriving instance BEq for InputObjectTypeDefinition
deriving instance BEq for DirectiveDefinition

/-! ## Documents -/

deriving instance BEq for Definition
deriving instance BEq for Document

end GraphQL
