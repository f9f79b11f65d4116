import GraphQL.Syntax.Document

/-! Constants in a syntax tree.

Default values are constants, and so are the arguments of directives on definitions of
variables and on all parts of a type system. They are listed in the order in which they
were written, and so are the variables in a value. -/

namespace GraphQL

variable {L M : Type}

/-! ## Variables in values -/

mutual

/-- The variables at any depth of a value -/
def Value.variables : Value L → List (Variable L)
  | .variable named => [named]
  | .list items _ => Value.variablesOfAll items
  | .object members _ => ObjectMember.variablesOfAll members
  | .boolean _ _ | .enum _ _ | .float _ _ | .int _ _ | .null _ | .string _ => []

def Value.variablesOfAll : List (Value L) → List (Variable L)
  | [] => []
  | value :: rest => value.variables ++ Value.variablesOfAll rest

def ObjectMember.variables : ObjectMember L → List (Variable L)
  | .mk _ value _ => value.variables

def ObjectMember.variablesOfAll : List (ObjectMember L) → List (Variable L)
  | [] => []
  | member :: rest => member.variables ++ ObjectMember.variablesOfAll rest

end

theorem Value.variablesOfAll_eq (items : List (Value L)) :
    Value.variablesOfAll items = items.flatMap Value.variables := by
  induction items with
  | nil => rfl
  | cons item items induction => rw [Value.variablesOfAll, List.flatMap_cons, induction]

theorem ObjectMember.variablesOfAll_eq (members : List (ObjectMember L)) :
    ObjectMember.variablesOfAll members = members.flatMap ObjectMember.variables := by
  induction members with
  | nil => rfl
  | cons member members induction =>
      rw [ObjectMember.variablesOfAll, List.flatMap_cons, induction]

mutual

theorem Value.isConstant_iff (value : Value L) :
    value.isConstant = true ↔ value.variables = [] := by
  cases value with
  | list items => exact Value.allConstant_iff items
  | object members => exact ObjectMember.allConstant_iff members
  | «variable» => exact iff_of_false Bool.false_ne_true (List.cons_ne_nil _ _)
  | boolean | enum | float | int | null | string => exact iff_of_true rfl rfl

theorem Value.allConstant_iff (items : List (Value L)) :
    Value.allConstant items = true ↔ Value.variablesOfAll items = [] := by
  cases items with
  | nil => exact iff_of_true rfl rfl
  | cons item rest =>
      rw [Value.allConstant, Value.variablesOfAll, Bool.and_eq_true,
        List.append_eq_nil_iff, Value.isConstant_iff item, Value.allConstant_iff rest]

theorem ObjectMember.isConstant_iff (member : ObjectMember L) :
    member.isConstant = true ↔ member.variables = [] := by
  cases member with
  | mk name value => exact Value.isConstant_iff value

theorem ObjectMember.allConstant_iff (members : List (ObjectMember L)) :
    ObjectMember.allConstant members = true ↔
      ObjectMember.variablesOfAll members = [] := by
  cases members with
  | nil => exact iff_of_true rfl rfl
  | cons member rest =>
      rw [ObjectMember.allConstant, ObjectMember.variablesOfAll, Bool.and_eq_true,
        List.append_eq_nil_iff,
        ObjectMember.isConstant_iff member, ObjectMember.allConstant_iff rest]

end

mutual

@[simp] theorem Value.isConstant_map (note : L → M) (value : Value L) :
    (value.map note).isConstant = value.isConstant := by
  cases value with
  | list items => exact Value.allConstant_mapAll note items
  | object members => exact ObjectMember.allConstant_mapAll note members
  | «variable» | boolean | enum | float | int | null | string => rfl

theorem Value.allConstant_mapAll (note : L → M) (items : List (Value L)) :
    Value.allConstant (Value.mapAll note items) = Value.allConstant items := by
  cases items with
  | nil => rfl
  | cons item rest =>
      rw [Value.mapAll, Value.allConstant, Value.allConstant,
        Value.isConstant_map note item, Value.allConstant_mapAll note rest]

theorem ObjectMember.isConstant_map (note : L → M) (member : ObjectMember L) :
    (member.map note).isConstant = member.isConstant := by
  cases member with
  | mk name value => exact Value.isConstant_map note value

theorem ObjectMember.allConstant_mapAll (note : L → M) (members : List (ObjectMember L)) :
    ObjectMember.allConstant (ObjectMember.mapAll note members) =
      ObjectMember.allConstant members := by
  cases members with
  | nil => rfl
  | cons member rest =>
      rw [ObjectMember.mapAll, ObjectMember.allConstant, ObjectMember.allConstant,
        ObjectMember.isConstant_map note member,
          ObjectMember.allConstant_mapAll note rest]

end

/-! ## Constants of definitions -/

def Directive.values (directive : Directive L) : List (Value L) :=
  directive.arguments.map (·.value)

/-- A default value, if there is one, and the values that directives are given -/
def constantsOf (defaultValue : Option (Value L)) (directives : List (Directive L)) :
    List (Value L) :=
  defaultValue.toList ++ directives.flatMap Directive.values

def VariableDefinition.constants (definition : VariableDefinition L) : List (Value L) :=
  constantsOf definition.defaultValue definition.directives

def InputValueDefinition.constants (definition : InputValueDefinition L) :
    List (Value L) :=
  constantsOf definition.defaultValue definition.directives

def FieldDefinition.constants (definition : FieldDefinition L) : List (Value L) :=
  definition.arguments.flatMap InputValueDefinition.constants ++
    constantsOf none definition.directives

def EnumValueDefinition.constants (definition : EnumValueDefinition L) : List (Value L) :=
  constantsOf none definition.directives

/-- Of operations, those of their variables; fragments have none. -/
def Definition.constants : Definition L → List (Value L)
  | .operation definition =>
      definition.variableDefinitions.flatMap VariableDefinition.constants
  | .fragment _ => []
  | .schema definition => constantsOf none definition.directives
  | .scalar definition => constantsOf none definition.directives
  | .object definition | .interface definition =>
      constantsOf none definition.directives ++
        definition.fields.flatMap FieldDefinition.constants
  | .union definition => constantsOf none definition.directives
  | .enum definition =>
      constantsOf none definition.directives ++
        definition.values.flatMap EnumValueDefinition.constants
  | .inputObject definition =>
      constantsOf none definition.directives ++
        definition.fields.flatMap InputValueDefinition.constants
  | .directive definition => definition.arguments.flatMap InputValueDefinition.constants

def Document.constants (document : Document L) : List (Value L) :=
  document.definitions.flatMap Definition.constants

/-! ### Notes -/

section

variable (note : L → M)

theorem flatMap_map_of_forall {α β γ δ : Type} (change : α → β) (change' : γ → δ)
    (list : α → List γ)
    (list' : β → List δ) (same : ∀ item, list' (change item) = (list item).map change')
    (items : List α) :
    (items.map change).flatMap list' = (items.flatMap list).map change' := by
  rw [List.flatMap_map, List.map_flatMap]
  simp only [same]

@[simp] theorem constantsOf_map (defaultValue : Option (Value L))
    (directives : List (Directive L)) :
    constantsOf (defaultValue.map (·.map note)) (directives.map (·.map note)) =
      (constantsOf defaultValue directives).map (·.map note) := by
  have values : ∀ directive : Directive L, (directive.map note).values =
      directive.values.map (·.map note) := by
    intro directive
    simp [Directive.values, Directive.map, Argument.map]
  rw [constantsOf, constantsOf, List.map_append, flatMap_map_of_forall _ _ _ _ values]
  cases defaultValue <;> rfl

@[simp] theorem constantsOf_none_map (directives : List (Directive L)) :
    constantsOf none (directives.map (·.map note)) =
      (constantsOf none directives).map (·.map note) :=
  constantsOf_map note none directives

theorem VariableDefinition.constants_map (definition : VariableDefinition L) :
    (definition.map note).constants = definition.constants.map (·.map note) :=
      constantsOf_map ..

theorem InputValueDefinition.constants_map (definition : InputValueDefinition L) :
    (definition.map note).constants = definition.constants.map (·.map note) :=
      constantsOf_map ..

theorem FieldDefinition.constants_map (definition : FieldDefinition L) :
    (definition.map note).constants = definition.constants.map (·.map note) := by
  simp [FieldDefinition.constants, FieldDefinition.map,
    flatMap_map_of_forall _ _ _ _ (InputValueDefinition.constants_map note)]

theorem EnumValueDefinition.constants_map (definition : EnumValueDefinition L) :
    (definition.map note).constants = definition.constants.map (·.map note) :=
      constantsOf_none_map ..

theorem Definition.constants_map (definition : Definition L) :
    (definition.map note).constants = definition.constants.map (·.map note) := by
  cases definition with
  | operation =>
      exact flatMap_map_of_forall _ _ _ _ (VariableDefinition.constants_map note) _
  | fragment => rfl
  | schema | scalar | union => exact constantsOf_none_map ..
  | object | interface =>
      simp [Definition.constants, Definition.map, FieldedTypeDefinition.map,
        flatMap_map_of_forall _ _ _ _ (FieldDefinition.constants_map note)]
  | enum =>
      simp [Definition.constants, Definition.map, EnumTypeDefinition.map,
        flatMap_map_of_forall _ _ _ _ (EnumValueDefinition.constants_map note)]
  | inputObject =>
      simp [Definition.constants, Definition.map, InputObjectTypeDefinition.map,
        flatMap_map_of_forall _ _ _ _ (InputValueDefinition.constants_map note)]
  | directive =>
      exact flatMap_map_of_forall _ _ _ _ (InputValueDefinition.constants_map note) _

theorem Document.constants_map (document : Document L) :
    (document.map note).constants = document.constants.map (·.map note) :=
  flatMap_map_of_forall _ _ _ _ (Definition.constants_map note) _

end

end GraphQL
