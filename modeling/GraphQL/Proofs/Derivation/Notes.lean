import GraphQL.Proofs.Derivation.Outline

/-! The notes in a tree.

A derived tree has no notes but those of places that its derivation lies between. -/

namespace GraphQL

variable {L M N O : Type}

namespace Outline

def node : Outline L → Node L
  | .mk _ node _ => node

@[simp] theorem node_outline (role : Role) (node : Node L) :
    (node.outline role).node = node := rfl

end Outline

section

variable {note : L → M} {node : Node L}

theorem Node.isValue_of_map {value : Value M} (equal : node.map note = .value value) :
    ∃ tree, node = .value tree := by
  cases node with
  | value tree => exact ⟨tree, rfl⟩
  | _ => cases equal

theorem Node.isType_of_map {type : TypeReference M} (equal : node.map note = .type type) :
    ∃ tree, node = .type tree := by
  cases node with
  | type tree => exact ⟨tree, rfl⟩
  | _ => cases equal

theorem Node.isDefinition_of_map {definition : Definition M}
    (equal : node.map note = .definition definition) :
    ∃ tree, node = .definition tree := by
  cases node with
  | definition tree => exact ⟨tree, rfl⟩
  | _ => cases equal

end

section

variable {first : L → M} {second : M → O} {first' : L → N} {second' : N → O}

theorem Selection.map_map_eq (selection : Selection L)
    (children : ∀ outline ∈ selection.outline.children,
      (outline.node.map first).map second = (outline.node.map first').map second')
    (location : second (first selection.location) = second' (first' selection.location)) :
    ((Node.selection selection).map first).map second =
      ((Node.selection selection).map first').map second' := by
  cases selection with
  | field aliasName _ _ _ selectionSet =>
      cases aliasName <;> cases selectionSet <;>
        simp [Selection.outline, Outline.children, SelectionSet.outlineOption,
          Name.outline_eq,
          Directive.outline_eq, Argument.outline_eq, SelectionSet.outline_eq, or_imp,
            forall_and] at children <;>
        simp_all [Selection.location, Node.map, Selection.map, SelectionSet.mapOption]
  | spread =>
      simp [Selection.outline, Outline.children, Name.outline_eq, Directive.outline_eq]
        at children
      simp_all [Selection.location, Node.map, Selection.map]
  | inlineFragment typeCondition =>
      cases typeCondition <;>
        simp [Selection.outline, Outline.children, NamedType.outline_eq,
          Directive.outline_eq,
          SelectionSet.outline_eq, or_imp, forall_and] at children <;>
        simp_all [Selection.location, Node.map, Selection.map]

theorem Definition.map_map_eq (definition : Definition L)
    (children : ∀ outline ∈ definition.outline.children,
      (outline.node.map first).map second = (outline.node.map first').map second')
    (location : second (first definition.location) =
      second' (first' definition.location)) :
    ((Node.definition definition).map first).map second =
      ((Node.definition definition).map first').map second' := by
  cases definition with
  | operation definition =>
      cases name : definition.name <;>
        simp [Definition.outline, OperationDefinition.outline, Outline.children,
          Name.outline_eq,
          VariableDefinition.outline_eq, Directive.outline_eq,
            SelectionSet.outline_eq, name, or_imp,
          forall_and] at children <;>
        simp_all [Definition.location, Node.map, Definition.map, OperationDefinition.map]
  | fragment =>
      simp [Definition.outline, FragmentDefinition.outline, Outline.children,
        Name.outline_eq,
        NamedType.outline_eq, Directive.outline_eq, SelectionSet.outline_eq, or_imp,
          forall_and] at children
      simp_all [Definition.location, Node.map, Definition.map, FragmentDefinition.map]
  | schema definition =>
      cases description : definition.description <;>
        simp [Definition.outline, SchemaDefinition.outline, Outline.children,
          descriptionOutline,
          StringValue.outline_eq, Directive.outline_eq,
            OperationTypeDefinition.outline_eq, description,
          or_imp, forall_and] at children <;>
        simp_all [Definition.location, Node.map, Definition.map, SchemaDefinition.map]
  | scalar definition =>
      cases description : definition.description <;>
        simp [Definition.outline, Outline.children, descriptionOutline,
          StringValue.outline_eq,
          Name.outline_eq, Directive.outline_eq, description] at children <;>
        simp_all [Definition.location, Node.map, Definition.map, ScalarTypeDefinition.map]
  | object definition | interface definition =>
      cases description : definition.description <;>
        simp [Definition.outline, FieldedTypeDefinition.outlines, Outline.children,
          descriptionOutline,
          StringValue.outline_eq, Name.outline_eq, NamedType.outline_eq,
            Directive.outline_eq,
          FieldDefinition.outline_eq, description, or_imp, forall_and] at children <;>
        simp_all [Definition.location, Node.map, Definition.map,
          FieldedTypeDefinition.map]
  | union definition =>
      cases description : definition.description <;>
        simp [Definition.outline, Outline.children, descriptionOutline,
          StringValue.outline_eq,
          Name.outline_eq, NamedType.outline_eq, Directive.outline_eq,
            description, or_imp,
          forall_and] at children <;>
        simp_all [Definition.location, Node.map, Definition.map, UnionTypeDefinition.map]
  | enum definition =>
      cases description : definition.description <;>
        simp [Definition.outline, Outline.children, descriptionOutline,
          StringValue.outline_eq,
          Name.outline_eq, Directive.outline_eq, EnumValueDefinition.outline_eq,
            description, or_imp,
          forall_and] at children <;>
        simp_all [Definition.location, Node.map, Definition.map, EnumTypeDefinition.map]
  | inputObject definition =>
      cases description : definition.description <;>
        simp [Definition.outline, Outline.children, descriptionOutline,
          StringValue.outline_eq,
          Name.outline_eq, Directive.outline_eq, InputValueDefinition.outline_eq,
            description, or_imp,
          forall_and] at children <;>
        simp_all [Definition.location, Node.map, Definition.map,
          InputObjectTypeDefinition.map]
  | directive definition =>
      cases description : definition.description <;>
        simp [Definition.outline, Outline.children, descriptionOutline,
          StringValue.outline_eq,
          Name.outline_eq, InputValueDefinition.outline_eq, description, or_imp,
            forall_and] at children <;>
        simp_all [Definition.location, Node.map, Definition.map, DirectiveDefinition.map]

theorem Node.map_map_eq (node : Node L)
    (children : ∀ outline ∈ node.children,
      (outline.node.map first).map second = (outline.node.map first').map second')
    (location : second (first node.location) = second' (first' node.location)) :
    (node.map first).map second = (node.map first').map second' := by
  cases node with
  | name | description => simp_all [Node.location, Node.map, Name.map, StringValue.map]
  | namedType | «variable» =>
      simp [Node.children, NamedType.outline, Variable.outline, Outline.children,
        Name.outline_eq] at children
      simp_all [Node.location, Node.map, NamedType.map, Variable.map]
  | argument =>
      simp [Node.children, Argument.outline, Outline.children, Name.outline_eq,
        Value.outline_eq] at children
      simp_all [Node.location, Node.map, Argument.map]
  | directive =>
      simp [Node.children, Directive.outline, Outline.children, Name.outline_eq,
        Argument.outline_eq] at children
      simp_all [Node.location, Node.map, Directive.map]
  | document =>
      simp [Node.children, Document.outline, Outline.children, Definition.outline_eq]
        at children
      simp_all [Node.location, Node.map, Document.map]
  | variableDefinition definition =>
      cases defaultValue : definition.defaultValue <;>
        simp [Node.children, VariableDefinition.outline, Outline.children,
          Variable.outline_eq,
          TypeReference.outline_eq, Value.outline_eq, Directive.outline_eq, defaultValue]
            at children <;>
        simp_all [Node.location, Node.map, VariableDefinition.map]
  | operationTypeDefinition =>
      simp [Node.children, OperationTypeDefinition.outline, Outline.children,
        NamedType.outline_eq] at children
      simp_all [Node.location, Node.map, OperationTypeDefinition.map]
  | fieldDefinition definition =>
      cases description : definition.description <;>
        simp [Node.children, FieldDefinition.outline, Outline.children,
          descriptionOutline, StringValue.outline_eq,
          Name.outline_eq, InputValueDefinition.outline_eq, TypeReference.outline_eq,
            Directive.outline_eq,
          description, or_imp, forall_and] at children <;>
        simp_all [Node.location, Node.map, FieldDefinition.map]
  | inputValueDefinition definition =>
      cases description : definition.description <;>
        cases defaultValue : definition.defaultValue <;>
        simp [Node.children, InputValueDefinition.outline, Outline.children,
          descriptionOutline,
          StringValue.outline_eq, Name.outline_eq, TypeReference.outline_eq,
            Value.outline_eq,
          Directive.outline_eq, description, defaultValue] at children <;>
        simp_all [Node.location, Node.map, InputValueDefinition.map]
  | enumValueDefinition definition =>
      cases description : definition.description <;>
        simp [Node.children, EnumValueDefinition.outline, Outline.children,
          descriptionOutline,
          StringValue.outline_eq, Name.outline_eq, Directive.outline_eq, description]
            at children <;>
        simp_all [Node.location, Node.map, EnumValueDefinition.map]
  | selectionSet selections =>
      cases selections
      simp [Node.children, SelectionSet.outline, Outline.children, Selection.outlines_eq]
        at children
      simp_all [Node.location, SelectionSet.location, Node.map, SelectionSet.map,
        Selection.mapAll_eq]
  | member member =>
      cases member
      simp [Node.children, ObjectMember.outline, Outline.children, Name.outline_eq,
        Value.outline_eq] at children
      simp_all [Node.location, ObjectMember.location, Node.map, ObjectMember.map]
  | type type =>
      cases type <;>
        simp [Node.children, TypeReference.outline, Outline.children, Name.outline_eq,
          TypeReference.outline_eq] at children <;>
        simp_all [Node.location, TypeReference.location, Node.map, TypeReference.map,
          NamedType.map]
  | value value =>
      cases value <;>
        simp [Node.children, Value.outline, Outline.children, Name.outline_eq,
          Value.outlines_eq, ObjectMember.outlines_eq] at children <;>
        simp_all [Node.location, Value.location, Node.map, Value.map, Value.mapAll_eq,
          ObjectMember.mapAll_eq, Variable.map, StringValue.map]
  | selection selection => exact selection.map_map_eq children location
  | definition definition => exact definition.map_map_eq children location

variable {noteOf : Nat → Nat → L} {depth : Nat} {place after : Place}

theorem Spells.map_map_eq {parts : List (Part L)}
    (spells : Spells noteOf depth parts place after)
    (same : ∀ start stop, place.ordinal ≤ start → start < stop → stop ≤ after.ordinal →
      second (first (noteOf start stop)) = second' (first' (noteOf start stop))) :
    ∀ outline ∈ parts.flatMap Part.outlines,
      (outline.node.map first).map second = (outline.node.map first').map second' := by
  induction spells with
  | nil => simp
  | token covers _ _ induction | putIn covers _ _ induction =>
      exact induction fun start stop least =>
        same start stop (Nat.le_trans covers.le least)
  | leftOut _ induction | provided _ _ induction | notBefore _ _ induction =>
      exact induction same
  | @child _ _ _ constness node _ _ _ _ _ inside location rest inside' rest' =>
      obtain ⟨_, before⟩ := inside.covers
      obtain ⟨_, behind⟩ := rest.covers
      have children := inside' fun start stop least lt most =>
        same start stop least lt (Nat.le_trans most behind.le)
      rw [← Node.children_eq] at children
      refine List.forall_mem_cons.mpr ⟨node.map_map_eq children ?_, ?_⟩
      · rw [location]
        exact same _ _ (Nat.le_refl _) (inside.lt (Node.parts_isSolid _ _)) behind.le
      · exact rest' fun start stop least => same start stop (Nat.le_trans before.le least)

theorem Node.Derives.map_map_eq {constness : Constness} {node : Node L}
    (derives : node.Derives noteOf depth constness place after)
    (same : ∀ start stop, place.ordinal ≤ start → start < stop → stop ≤ after.ordinal →
      second (first (noteOf start stop)) = second' (first' (noteOf start stop))) :
    (node.map first).map second = (node.map first').map second' := by
  have lt := derives.lt
  obtain ⟨_, _, spells, location⟩ := derives
  refine node.map_map_eq ?_ ?_
  · rw [Node.children_eq constness]
    exact spells.map_map_eq same
  · rw [location]
    exact same _ _ (Nat.le_refl _) lt (Nat.le_refl _)

end

/-- A part of an outline whose notes have been replaced is that of one whose
notes have not. -/
theorem Outline.Within.of_map {note : L → M} {outline : Outline M} {role : Role}
    {node : Node L} (within : outline.Within ((node.map note).outline role)) :
    ∃ role' inner, outline = Node.outline role' (inner.map note) ∧
      (Node.outline role' inner).Within (node.outline role) := by
  generalize equal : (node.map note).outline role = whole at within
  induction within generalizing role node with
  | refl => exact ⟨role, node, equal.symm, .refl _⟩
  | deeper member within induction =>
      injection equal with _ _ equal
      rw [← equal, Node.children_eq .variable, Node.parts_map, List.flatMap_map,
        List.mem_flatMap] at member
      obtain ⟨part, isPart, isChild⟩ := member
      cases part with
      | child role' constness below =>
          obtain ⟨role'', inner, rfl, within'⟩ :=
            induction (List.mem_singleton.mp isChild).symm
          refine ⟨role'', inner, rfl, .deeper ?_ within'⟩
          rw [Node.children_eq .variable]
          exact List.mem_flatMap_of_mem isPart (List.mem_singleton.mpr rfl)
      | _ => cases isChild

end GraphQL
