import GraphQL.Proofs.Derivation.Variation

/-! Replacing the notes in a tree twice comes to replacing them once. -/

namespace GraphQL

variable {L M N : Type} (first : L → M) (second : M → N)

/-! ## Names, types and values -/

@[simp] theorem Name.map_map (name : Name L) :
    (name.map first).map second = name.map (second ∘ first) := rfl

@[simp] theorem NamedType.map_map (type : NamedType L) :
    (type.map first).map second = type.map (second ∘ first) := rfl

@[simp] theorem StringValue.map_map (string : StringValue L) :
    (string.map first).map second = string.map (second ∘ first) := rfl

@[simp] theorem Variable.map_map (reference : Variable L) :
    (reference.map first).map second = reference.map (second ∘ first) := rfl

@[simp] theorem TypeReference.map_map (type : TypeReference L) :
    (type.map first).map second = type.map (second ∘ first) := by
  induction type with
  | named type => rfl
  | list inner location induction | nonNull inner location induction =>
      simp [TypeReference.map, induction]

mutual

@[simp] theorem Value.map_map (value : Value L) :
    (value.map first).map second = value.map (second ∘ first) := by
  cases value with
  | list items => simp [Value.map, Value.mapAll_mapAll items]
  | object members => simp [Value.map, ObjectMember.mapAll_mapAll members]
  | string | «variable» => simp [Value.map]
  | boolean | enum | float | int | null => rfl

theorem Value.mapAll_mapAll (values : List (Value L)) :
    Value.mapAll second (Value.mapAll first values) =
      Value.mapAll (second ∘ first) values := by
  cases values with
  | nil => rfl
  | cons value rest => simp [Value.mapAll, Value.map_map value, Value.mapAll_mapAll rest]

theorem ObjectMember.map_map (member : ObjectMember L) :
    (member.map first).map second = member.map (second ∘ first) := by
  cases member with
  | mk name value => simp [ObjectMember.map, Value.map_map value]

theorem ObjectMember.mapAll_mapAll (members : List (ObjectMember L)) :
    ObjectMember.mapAll second (ObjectMember.mapAll first members) =
      ObjectMember.mapAll (second ∘ first) members := by
  cases members with
  | nil => rfl
  | cons member rest =>
      simp [ObjectMember.mapAll, ObjectMember.map_map member,
        ObjectMember.mapAll_mapAll rest]

end

/-! ## Selections -/

@[simp] theorem Argument.map_map (argument : Argument L) :
    (argument.map first).map second = argument.map (second ∘ first) := by
  simp [Argument.map]

@[simp] theorem Directive.map_map (directive : Directive L) :
    (directive.map first).map second = directive.map (second ∘ first) := by
  simp [Directive.map]

mutual

@[simp] theorem SelectionSet.map_map (selectionSet : SelectionSet L) :
    (selectionSet.map first).map second = selectionSet.map (second ∘ first) := by
  cases selectionSet with
  | mk selections => simp [SelectionSet.map, Selection.mapAll_mapAll selections]

theorem SelectionSet.mapOption_mapOption (selectionSet : Option (SelectionSet L)) :
    SelectionSet.mapOption second (SelectionSet.mapOption first selectionSet) =
      SelectionSet.mapOption (second ∘ first) selectionSet := by
  cases selectionSet with
  | none => rfl
  | some selectionSet => simp [SelectionSet.mapOption, SelectionSet.map_map selectionSet]

theorem Selection.map_map (selection : Selection L) :
    (selection.map first).map second = selection.map (second ∘ first) := by
  cases selection with
  | field _ _ _ _ selectionSet =>
      simp [Selection.map, SelectionSet.mapOption_mapOption selectionSet,
        Function.comp_def]
  | spread => simp [Selection.map]
  | inlineFragment _ _ selectionSet =>
      simp [Selection.map, SelectionSet.map_map selectionSet, Function.comp_def]

theorem Selection.mapAll_mapAll (selections : List (Selection L)) :
    Selection.mapAll second (Selection.mapAll first selections) =
      Selection.mapAll (second ∘ first) selections := by
  cases selections with
  | nil => rfl
  | cons selection rest =>
      simp [Selection.mapAll, Selection.map_map selection, Selection.mapAll_mapAll rest]

end

/-! ## Definitions -/

@[simp] theorem VariableDefinition.map_map (definition : VariableDefinition L) :
    (definition.map first).map second = definition.map (second ∘ first) := by
  simp [VariableDefinition.map, Function.comp_def]

@[simp] theorem InputValueDefinition.map_map (definition : InputValueDefinition L) :
    (definition.map first).map second = definition.map (second ∘ first) := by
  simp [InputValueDefinition.map, Function.comp_def]

@[simp] theorem FieldDefinition.map_map (definition : FieldDefinition L) :
    (definition.map first).map second = definition.map (second ∘ first) := by
  simp [FieldDefinition.map, Function.comp_def]

@[simp] theorem EnumValueDefinition.map_map (definition : EnumValueDefinition L) :
    (definition.map first).map second = definition.map (second ∘ first) := by
  simp [EnumValueDefinition.map, Function.comp_def]

@[simp] theorem OperationTypeDefinition.map_map (definition : OperationTypeDefinition L) :
    (definition.map first).map second = definition.map (second ∘ first) := rfl

@[simp] theorem Definition.map_map (definition : Definition L) :
    (definition.map first).map second = definition.map (second ∘ first) := by
  cases definition with
  | operation => simp [Definition.map, OperationDefinition.map, Function.comp_def]
  | fragment => simp [Definition.map, FragmentDefinition.map]
  | schema => simp [Definition.map, SchemaDefinition.map, Function.comp_def]
  | scalar => simp [Definition.map, ScalarTypeDefinition.map, Function.comp_def]
  | object | interface =>
      simp [Definition.map, FieldedTypeDefinition.map, Function.comp_def]
  | union => simp [Definition.map, UnionTypeDefinition.map, Function.comp_def]
  | enum => simp [Definition.map, EnumTypeDefinition.map, Function.comp_def]
  | inputObject => simp [Definition.map, InputObjectTypeDefinition.map, Function.comp_def]
  | directive => simp [Definition.map, DirectiveDefinition.map, Function.comp_def]

@[simp] theorem Document.map_map (document : Document L) :
    (document.map first).map second = document.map (second ∘ first) := by
  simp [Document.map]

@[simp] theorem Node.map_map (node : Node L) :
    (node.map first).map second = node.map (second ∘ first) := by
  cases node with
  | member => simp [Node.map, ObjectMember.map_map]
  | selection => simp [Node.map, Selection.map_map]
  | _ => simp [Node.map]

end GraphQL
