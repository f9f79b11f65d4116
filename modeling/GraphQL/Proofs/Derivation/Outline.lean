import GraphQL.Proofs.Derivation.Variation

/-! Derivations and outlines.

The nodes that an outline puts below a node are the children that the production of
the node has, in the same order. -/

namespace GraphQL

variable {L : Type}

def Outline.children : Outline L → List (Outline L)
  | .mk _ _ children => children

def Node.children : Node L → List (Outline L)
  | .document node => node.outline.children
  | .definition node => node.outline.children
  | .variableDefinition node => node.outline.children
  | .operationTypeDefinition node => node.outline.children
  | .fieldDefinition node => node.outline.children
  | .inputValueDefinition node => (node.outline .argument).children
  | .enumValueDefinition node => node.outline.children
  | .selectionSet node => node.outline.children
  | .selection node => node.outline.children
  | .argument node => node.outline.children
  | .directive node => node.outline.children
  | .description node => (node.outline .description).children
  | .name node => (node.outline .name).children
  | .namedType node => (node.outline .type).children
  | .type node => (node.outline .type).children
  | .value node => (node.outline .value).children
  | .member node => node.outline.children
  | .variable node => (node.outline .variable).children

def Node.outline (role : Role) (node : Node L) : Outline L :=
  .mk role node node.children

def Part.outlines : Part L → List (Outline L)
  | .child role _ node => [node.outline role]
  | .token _ | .perhaps _ | .provided _ | .notBefore _ => []

/-! ## Outlines of parts -/

section

variable (role : Role)

theorem Name.outline_eq (name : Name L) :
    name.outline role = Node.outline role (.name name) := rfl

theorem NamedType.outline_eq (type : NamedType L) :
    type.outline role = Node.outline role (.namedType type) := rfl

theorem TypeReference.outline_eq (type : TypeReference L) :
    type.outline role = Node.outline role (.type type) := by
  cases type <;> rfl

theorem StringValue.outline_eq (string : StringValue L) :
    string.outline role = Node.outline role (.description string) := rfl

theorem Variable.outline_eq (named : Variable L) :
    named.outline role = Node.outline role (.variable named) := rfl

theorem Value.outline_eq (value : Value L) :
    value.outline role = Node.outline role (.value value) := by
  cases value <;> rfl

theorem InputValueDefinition.outline_eq (definition : InputValueDefinition L) :
    definition.outline role = Node.outline role (.inputValueDefinition definition) := rfl

end

theorem ObjectMember.outline_eq (member : ObjectMember L) :
    member.outline = Node.outline .member (.member member) := by
  cases member
  rfl

theorem Argument.outline_eq :
    (Argument.outline : Argument L → Outline L) = fun argument =>
      Node.outline .argument (.argument argument) :=
  rfl

theorem Directive.outline_eq :
    (Directive.outline : Directive L → Outline L) =
      fun directive => Node.outline .directive (.directive directive) := rfl

theorem SelectionSet.outline_eq (selectionSet : SelectionSet L) :
    selectionSet.outline = Node.outline .selectionSet (.selectionSet selectionSet) := by
  cases selectionSet
  rfl

theorem Selection.outline_eq (selection : Selection L) :
    selection.outline = Node.outline .selection (.selection selection) := by
  cases selection <;> rfl

theorem VariableDefinition.outline_eq :
    (VariableDefinition.outline : VariableDefinition L → Outline L) =
      fun definition =>
        Node.outline .variableDefinition (.variableDefinition definition) := rfl

theorem OperationTypeDefinition.outline_eq :
    (OperationTypeDefinition.outline : OperationTypeDefinition L → Outline L) =
      fun definition =>
        Node.outline .operationType (.operationTypeDefinition definition) := rfl

theorem FieldDefinition.outline_eq :
    (FieldDefinition.outline : FieldDefinition L → Outline L) =
      fun definition => Node.outline .field (.fieldDefinition definition) := rfl

theorem EnumValueDefinition.outline_eq :
    (EnumValueDefinition.outline : EnumValueDefinition L → Outline L) =
      fun definition => Node.outline .value (.enumValueDefinition definition) := rfl

theorem Definition.outline_eq :
    (Definition.outline : Definition L → Outline L) =
      fun definition => Node.outline .definition (.definition definition) := by
  funext definition
  cases definition <;> rfl

theorem Document.outline_eq (document : Document L) :
    document.outline = Node.outline .document (.document document) := rfl

theorem Value.outlines_eq (items : List (Value L)) :
    Value.outlines items = items.map fun item => Node.outline .value (.value item) := by
  induction items with
  | nil => rfl
  | cons item items induction =>
      rw [Value.outlines, List.map_cons, induction, Value.outline_eq]

theorem ObjectMember.outlines_eq (members : List (ObjectMember L)) :
    ObjectMember.outlines members =
      members.map fun member => Node.outline .member (.member member) := by
  induction members with
  | nil => rfl
  | cons member members induction =>
      rw [ObjectMember.outlines, List.map_cons, induction, ObjectMember.outline_eq]

theorem Selection.outlines_eq (selections : List (Selection L)) :
    Selection.outlines selections =
      selections.map fun selection => Node.outline .selection (.selection selection) := by
  induction selections with
  | nil => rfl
  | cons selection selections induction =>
      rw [Selection.outlines, List.map_cons, induction, Selection.outline_eq]

theorem SelectionSet.outlineOption_eq (selectionSet : Option (SelectionSet L)) :
    SelectionSet.outlineOption selectionSet =
      (selectionSet.map fun selectionSet => Node.outline .selectionSet
        (.selectionSet selectionSet)).toList := by
  cases selectionSet with
  | none => rfl
  | some selectionSet => simp [SelectionSet.outlineOption, SelectionSet.outline_eq]

namespace Part

@[simp] theorem outlines_token (spelling : Spelling) :
    (token spelling : Part L).outlines = [] := rfl

@[simp] theorem outlines_perhaps (spelling : Spelling) :
    (perhaps spelling : Part L).outlines = [] := rfl

@[simp] theorem outlines_provided (condition : Bool) :
    (provided condition : Part L).outlines = [] := rfl

@[simp] theorem outlines_notBefore (mark : Punctuator) :
    (notBefore mark : Part L).outlines = [] := rfl

@[simp] theorem outlines_mark (punctuator : Punctuator) :
    (mark punctuator : Part L).outlines = [] := rfl

@[simp] theorem outlines_word (text : String) : (word text : Part L).outlines = [] := rfl

@[simp] theorem outlines_name (name : Name L) :
    (Part.name name).outlines = [Node.outline .name (.name name)] := rfl

@[simp] theorem outlines_child (role : Role) (constness : Constness) (node : Node L) :
    (child role constness node).outlines = [node.outline role] := rfl

@[simp] theorem outlines_inParens (items : List (Part L)) :
    (inParens items).flatMap outlines = items.flatMap outlines := by
  cases items <;> simp [inParens]

@[simp] theorem outlines_inBraces (items : List (Part L)) :
    (inBraces items).flatMap outlines = items.flatMap outlines := by
  cases items <;> simp [inBraces]

@[simp] theorem outlines_separated (separator : Punctuator) (items : List (Part L)) :
    (separated separator items).flatMap outlines = items.flatMap outlines := by
  cases items <;> simp [separated, List.flatMap_assoc]

@[simp] theorem outlines_children {α : Type} (role : Role) (constness : Constness)
    (node : α → Node L) (items : List α) :
    (items.map fun item => child role constness (node item)).flatMap outlines =
      items.map fun item => (node item).outline role := by
  rw [List.flatMap_map, List.map_eq_flatMap]
  rfl

@[simp] theorem outlines_description (string : Option (StringValue L)) :
    (description string).flatMap outlines = descriptionOutline string := by
  cases string <;> simp [description, descriptionOutline, StringValue.outline_eq]

@[simp] theorem outlines_directives (constness : Constness) (items : List (Directive L)) :
    (directives constness items).flatMap outlines =
      items.map fun item => Node.outline .directive (.directive item) :=
  outlines_children ..

@[simp] theorem outlines_arguments (constness : Constness) (items : List (Argument L)) :
    (arguments constness items).flatMap outlines =
      items.map fun item => Node.outline .argument (.argument item) := by
  simp [arguments]

@[simp] theorem outlines_defaultValue (value : Option (Value L)) :
    (defaultValue value).flatMap outlines =
      (value.map fun value => Node.outline .default (.value value)).toList := by
  cases value <;> simp [defaultValue]

@[simp] theorem outlines_argumentDefinitions (items : List (InputValueDefinition L)) :
    (argumentDefinitions items).flatMap outlines =
      items.map fun item => Node.outline .argument (.inputValueDefinition item) := by
  simp [argumentDefinitions]

@[simp] theorem outlines_interfaces (types : List (NamedType L)) :
    (interfaces types).flatMap outlines =
      types.map fun type => Node.outline .interface (.namedType type) := by
  cases types with
  | nil => rfl
  | cons type types =>
      have unfolded :
          interfaces (type :: types) = word "implements" :: separated .ampersand
          ((type :: types).map (child .interface .constant <| .namedType ·)) := rfl
      rw [unfolded, List.flatMap_cons, outlines_separated, outlines_children]
      rfl

@[simp] theorem outlines_unionMembers (types : List (NamedType L)) :
    (unionMembers types).flatMap outlines =
      types.map fun type => Node.outline .member (.namedType type) := by
  cases types with
  | nil => rfl
  | cons type types =>
      have unfolded : unionMembers (type :: types) = mark .equals :: separated .pipe
          ((type :: types).map (child .member .constant <| .namedType ·)) := rfl
      rw [unfolded, List.flatMap_cons, outlines_separated, outlines_children]
      rfl

end Part

theorem Definition.children_eq (definition : Definition L) :
    definition.outline.children = definition.parts.flatMap Part.outlines := by
  cases definition with
  | operation definition =>
      obtain ⟨operation, name, variableDefinitions, directives, selectionSet, location⟩ :=
        definition
      cases isShorthand : OperationDefinition.isShorthand
          ⟨operation, name, variableDefinitions, directives, selectionSet, location⟩ <;>
        cases name <;>
        simp [Definition.outline, OperationDefinition.outline, Outline.children,
          Definition.parts,
          OperationDefinition.parts, Part.selectionSet, Name.outline_eq,
            VariableDefinition.outline_eq,
          Directive.outline_eq, SelectionSet.outline_eq, isShorthand]
  | directive definition =>
      cases isRepeatable : definition.isRepeatable <;>
        simp [Definition.outline, Outline.children, Definition.parts,
          DirectiveDefinition.parts,
          Name.outline_eq, InputValueDefinition.outline_eq, isRepeatable]
  | _ definition =>
      simp [Definition.outline, Outline.children, Definition.parts,
        FragmentDefinition.outline,
        SchemaDefinition.outline, FieldedTypeDefinition.outlines,
          FragmentDefinition.parts,
        SchemaDefinition.parts, ScalarTypeDefinition.parts, FieldedTypeDefinition.parts,
        UnionTypeDefinition.parts, EnumTypeDefinition.parts,
          InputObjectTypeDefinition.parts,
        Part.selectionSet, Name.outline_eq, NamedType.outline_eq, Directive.outline_eq,
        SelectionSet.outline_eq, OperationTypeDefinition.outline_eq,
          FieldDefinition.outline_eq,
        EnumValueDefinition.outline_eq, InputValueDefinition.outline_eq]

theorem Selection.children_eq (selection : Selection L) :
    selection.outline.children = selection.parts.flatMap Part.outlines := by
  cases selection with
  | field aliasName _ _ _ selectionSet =>
      cases aliasName <;> cases selectionSet <;>
        simp [Selection.outline, Outline.children, Selection.parts, Part.aliasName,
          Part.selectionSet,
          SelectionSet.outlineOption_eq, Name.outline_eq, Directive.outline_eq,
            Argument.outline_eq]
  | spread =>
      simp [Selection.outline, Outline.children, Selection.parts, Name.outline_eq,
        Directive.outline_eq]
  | inlineFragment typeCondition =>
      cases typeCondition <;>
        simp [Selection.outline, Outline.children, Selection.parts, Part.typeCondition,
          Part.selectionSet, NamedType.outline_eq, Directive.outline_eq,
            SelectionSet.outline_eq]

theorem Value.children_eq (constness : Constness) (value : Value L) :
    (value.outline .value).children = (value.parts constness).flatMap Part.outlines := by
  cases value <;>
    simp [Value.outline, Outline.children, Value.parts, Variable.parts, Value.outlines_eq,
      ObjectMember.outlines_eq, Name.outline_eq]

theorem Node.children_eq (constness : Constness) (node : Node L) :
    node.children = (node.parts constness).flatMap Part.outlines := by
  cases node with
  | definition definition => exact definition.children_eq
  | selection selection => exact selection.children_eq
  | value value => exact value.children_eq constness
  | name name => rfl
  | namedType type => rfl
  | description string => rfl
  | «variable» named => rfl
  | type type =>
      cases type <;>
        simp [Node.children, TypeReference.outline, Outline.children, Node.parts,
          TypeReference.parts, Name.outline_eq, TypeReference.outline_eq]
  | selectionSet selectionSet =>
      cases selectionSet
      simp [Node.children, SelectionSet.outline, Outline.children, Node.parts,
        SelectionSet.parts, Selection.outlines_eq]
  | member member =>
      cases member
      simp [Node.children, ObjectMember.outline, Outline.children, Node.parts,
        ObjectMember.parts, Name.outline_eq, Value.outline_eq]
  | fieldDefinition definition =>
      simp [Node.children, FieldDefinition.outline, Outline.children, Node.parts,
        FieldDefinition.parts,
        Name.outline_eq, TypeReference.outline_eq, Directive.outline_eq,
          InputValueDefinition.outline_eq]
  | _ node =>
      simp [Node.children, Document.outline, VariableDefinition.outline,
        OperationTypeDefinition.outline,
        InputValueDefinition.outline, EnumValueDefinition.outline, Argument.outline,
          Directive.outline,
        Outline.children, Node.parts, Document.parts, VariableDefinition.parts,
        OperationTypeDefinition.parts, InputValueDefinition.parts,
          EnumValueDefinition.parts,
        Argument.parts, Directive.parts, Name.outline_eq, NamedType.outline_eq,
          Variable.outline_eq,
        TypeReference.outline_eq, Value.outline_eq, Argument.outline_eq,
          Directive.outline_eq,
        Definition.outline_eq]

/-! ## Nodes within nodes -/

inductive Outline.Within : Outline L → Outline L → Prop
  | refl (outline : Outline L) : Within outline outline
  | deeper {outline child : Outline L} {role : Role} {node : Node L}
      {children : List (Outline L)} :
      child ∈ children → Within outline child → Within outline (.mk role node children)

/-- The outline of a node that is derived from the tokens from one place to another -/
def Outline.Derived (noteOf : Nat → Nat → L) (depth : Nat) (outline : Outline L)
    (place after : Place) :
    Prop :=
  ∃ role constness node, outline = Node.outline role node ∧
    node.Derives noteOf depth constness place after

def Place.Reaches (place after : Place) : Prop := ∃ covered, place.Covers covered after

theorem Place.Reaches.refl (place : Place) : place.Reaches place := ⟨[], by simp⟩

theorem Place.Reaches.trans {place middle after : Place} (before : place.Reaches middle)
    (behind : middle.Reaches after) : place.Reaches after := by
  obtain ⟨first, before⟩ := before
  obtain ⟨second, behind⟩ := behind
  exact ⟨_, before.trans behind⟩

theorem Place.Reaches.le {place after : Place} (reaches : place.Reaches after) :
    place.ordinal ≤ after.ordinal := by
  obtain ⟨covered, covers⟩ := reaches
  exact covers.le

/-- The outlines are derived from the tokens from one place to another, each of them
from tokens behind those of the one before. -/
inductive Outline.Laid (noteOf : Nat → Nat → L) (depth : Nat) :
    List (Outline L) → Place → Place → Prop
  | nil {place after} : place.Reaches after → Laid noteOf depth [] place after
  | cons {outline outlines place first last after} :
      place.Reaches first → outline.Derived noteOf depth first last →
      Laid noteOf depth outlines last after →
      Laid noteOf depth (outline :: outlines) place after

variable {noteOf : Nat → Nat → L} {depth : Nat} {place after : Place}
variable {outline inner : Outline L}

theorem Outline.Derived.lt (derived : outline.Derived noteOf depth place after) :
    place.ordinal < after.ordinal := by
  obtain ⟨_, _, _, _, derives⟩ := derived
  exact derives.lt

theorem Outline.Derived.mono {deeper : Nat}
    (derived : outline.Derived noteOf depth place after)
    (le : depth ≤ deeper) : outline.Derived noteOf deeper place after := by
  obtain ⟨role, constness, node, equal, derives⟩ := derived
  exact ⟨role, constness, node, equal, derives.mono le⟩

theorem Outline.Derived.covers (derived : outline.Derived noteOf depth place after) :
    ∃ covered, place.Covers covered after := by
  obtain ⟨_, _, _, _, derives⟩ := derived
  exact derives.covers

theorem Spells.reaches {parts : List (Part L)}
    (spells : Spells noteOf depth parts place after) :
    place.Reaches after := spells.covers

namespace Outline.Laid

variable {outlines : List (Outline L)}

theorem behind {middle : Place} (laid : Outline.Laid noteOf depth outlines middle after)
    (reaches : place.Reaches middle) :
    Outline.Laid noteOf depth outlines place after := by
  cases laid with
  | nil further => exact .nil (reaches.trans further)
  | cons before derived rest => exact .cons (reaches.trans before) derived rest

theorem mono {deeper : Nat} (laid : Outline.Laid noteOf depth outlines place after)
    (le : depth ≤ deeper) : Outline.Laid noteOf deeper outlines place after := by
  induction laid with
  | nil reaches => exact .nil reaches
  | cons before derived _ induction => exact .cons before (derived.mono le) induction

theorem reaches (laid : Outline.Laid noteOf depth outlines place after) :
    place.Reaches after := by
  induction laid with
  | nil reaches => exact reaches
  | cons before derived _ induction =>
      exact before.trans (Place.Reaches.trans derived.covers induction)

theorem derived (laid : Outline.Laid noteOf depth outlines place after) :
    ∀ outline ∈ outlines, ∃ first last, place.Reaches first ∧ last.Reaches after ∧
      outline.Derived noteOf depth first last := by
  induction laid with
  | nil => simp
  | cons before derived rest induction =>
      refine List.forall_mem_cons.mpr
        ⟨⟨_, _, before, rest.reaches, derived⟩, fun other member => ?_⟩
      obtain ⟨first, last, before', behind, derived'⟩ := induction other member
      exact ⟨first, last, before.trans (Place.Reaches.trans derived.covers before'),
        behind, derived'⟩

theorem ordered (laid : Outline.Laid noteOf depth outlines place after) :
    outlines.Pairwise fun outline other => ∃ first last first' last',
      outline.Derived noteOf depth first last ∧ other.Derived noteOf depth first' last' ∧
        last.ordinal ≤ first'.ordinal ∧ last'.Reaches after := by
  induction laid with
  | nil => exact .nil
  | cons _ derived rest induction =>
      refine .cons (fun other member => ?_) induction
      obtain ⟨first', last', before, behind, derived'⟩ := rest.derived other member
      exact ⟨_, _, first', last', derived, derived', before.le, behind⟩

end Outline.Laid

theorem Spells.laid {parts : List (Part L)}
    (spells : Spells noteOf depth parts place after) :
    Outline.Laid noteOf depth (parts.flatMap Part.outlines) place after := by
  induction spells with
  | nil => exact .nil (.refl _)
  | token covers _ _ induction | putIn covers _ _ induction =>
      exact induction.behind ⟨_, covers⟩
  | leftOut _ induction | provided _ _ induction | notBefore _ _ induction =>
      exact induction
  | child levels inside location _ _ induction =>
      exact .cons (.refl _) ⟨_, _, _, rfl, _, levels, inside, location⟩ induction

/-- The children of a node are derived from its tokens, each behind the one before. -/
theorem Outline.Derived.laid (derived : outline.Derived noteOf depth place after) :
    Outline.Laid noteOf depth outline.children place after := by
  obtain ⟨role, constness, node, rfl, inner, rfl, spells, _⟩ := derived
  have laid := spells.laid.mono (Nat.le_add_right inner node.levels)
  rwa [← Node.children_eq] at laid

/-- Whatever lies within a node is derived from some of its tokens. -/
theorem Outline.Derived.within (derived : outline.Derived noteOf depth place after)
    (within : inner.Within outline) :
    ∃ first last, place.Reaches first ∧ last.Reaches after ∧
      inner.Derived noteOf depth first last := by
  induction within generalizing place after with
  | refl => exact ⟨place, after, .refl place, .refl after, derived⟩
  | deeper member _ induction =>
      obtain ⟨first, last, before, behind, derived⟩ := derived.laid.derived _ member
      obtain ⟨first', last', before', behind', derived⟩ := induction derived
      exact ⟨first', last', before.trans before', behind'.trans behind, derived⟩

end GraphQL
