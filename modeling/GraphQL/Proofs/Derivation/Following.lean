import GraphQL.Proofs.Derivation.Production

/-! What may follow a node.

A body in braces may be left out, but then no brace may follow. It is the last part of the
definitions that can have one, and no definition lies within another, so all other nodes
may be followed by anything. -/

namespace GraphQL

variable {L : Type} {next : Lexeme}

/-- Whether the definition could have a body, and has none. -/
def Definition.isBodyless : Definition L → Bool
  | .object definition | .interface definition => definition.fields.isEmpty
  | .enum definition => definition.values.isEmpty
  | .inputObject definition => definition.fields.isEmpty
  | .operation _ | .fragment _ | .schema _ | .scalar _ | .union _ | .directive _ => false

def Definition.Admits (next : Lexeme) (definition : Definition L) : Prop :=
  definition.isBodyless = true → next ≠ .punctuator .leftBrace

def Node.Admits (next : Lexeme) : Node L → Prop
  | .document node => ∀ definition ∈ node.definitions, definition.Admits next
  | .definition node => node.Admits next
  | _ => True

theorem Node.admits_of_ne (node : Node L) (other : next ≠ .punctuator .leftBrace) :
    node.Admits next := by
  cases node with
  | document _ => exact fun _ _ _ => other
  | definition _ => exact fun _ => other
  | _ => trivial

def Part.Admits (next : Lexeme) : Part L → Prop
  | .notBefore mark => next ≠ .punctuator mark
  | .child _ _ node => node.Admits next
  | .token _ | .perhaps _ | .provided _ => True

namespace Part

def AllAdmit (next : Lexeme) (parts : List (Part L)) : Prop :=
  ∀ part ∈ parts, part.Admits next

@[simp] theorem allAdmit_nil : AllAdmit next ([] : List (Part L)) := List.forall_mem_nil _

@[simp] theorem allAdmit_cons {part : Part L} {parts : List (Part L)} :
    AllAdmit next (part :: parts) ↔ part.Admits next ∧ AllAdmit next parts :=
      List.forall_mem_cons

@[simp] theorem allAdmit_append {first second : List (Part L)} :
    AllAdmit next (first ++ second) ↔ AllAdmit next first ∧ AllAdmit next second :=
      List.forall_mem_append

theorem AllAdmit.head {part : Part L} {parts : List (Part L)}
    (all : AllAdmit next (part :: parts)) :
    part.Admits next := (allAdmit_cons.mp all).1

theorem AllAdmit.tail {part : Part L} {parts : List (Part L)}
    (all : AllAdmit next (part :: parts)) :
    AllAdmit next parts := (allAdmit_cons.mp all).2

@[simp] theorem admits_mark (mark : Punctuator) :
    (Part.mark mark : Part L).Admits next := trivial

@[simp] theorem admits_word (text : String) : (word text : Part L).Admits next := trivial

@[simp] theorem admits_token (spelling : Spelling) :
    (token spelling : Part L).Admits next := trivial

@[simp] theorem admits_perhaps (spelling : Spelling) :
    (perhaps spelling : Part L).Admits next := trivial

@[simp] theorem admits_provided (condition : Bool) :
    (provided condition : Part L).Admits next := trivial

@[simp] theorem admits_notBefore (mark : Punctuator) :
    (notBefore mark : Part L).Admits next ↔ next ≠ .punctuator mark := Iff.rfl

@[simp] theorem admits_child (role : Role) (constness : Constness) (node : Node L) :
    (child role constness node).Admits next ↔ node.Admits next := Iff.rfl

theorem allAdmit_children {α : Type} {role : Role} {constness : Constness}
    {node : α → Node L}
    {items : List α} :
    AllAdmit next (items.map fun item => child role constness (node item)) ↔
      ∀ item ∈ items, (node item).Admits next := List.forall_mem_map

@[simp] theorem allAdmit_inParens {items : List (Part L)} :
    AllAdmit next (inParens items) ↔ AllAdmit next items := by
  cases items <;> simp [inParens]

@[simp] theorem allAdmit_inBraces {items : List (Part L)} :
    AllAdmit next (inBraces items) ↔
    (items.isEmpty = true → next ≠ .punctuator .leftBrace) ∧ AllAdmit next items := by
  cases items <;> simp [inBraces]

@[simp] theorem allAdmit_separated {separator : Punctuator} {items : List (Part L)} :
    AllAdmit next (separated separator items) ↔ AllAdmit next items := by
  cases items with
  | nil => simp [separated]
  | cons first others =>
      have others' : AllAdmit next (others.flatMap ([mark separator, ·])) ↔
          AllAdmit next others := by
        induction others with
        | nil => simp
        | cons other others induction => simp [induction]
      simp [separated, others']

@[simp] theorem admits_name (name : Name L) : (Part.name name).Admits next := trivial

@[simp] theorem admits_selectionSet (selections : SelectionSet L) :
    (selectionSet selections).Admits next := trivial

@[simp] theorem allAdmit_description (string : Option (StringValue L)) :
    AllAdmit next (description string) := by
  cases string <;> simp [description, Node.Admits]

@[simp] theorem allAdmit_directives (constness : Constness) (items : List (Directive L)) :
    AllAdmit next (directives constness items) := allAdmit_children.mpr fun _ _ => trivial

@[simp] theorem allAdmit_arguments (constness : Constness) (items : List (Argument L)) :
    AllAdmit next (arguments constness items) :=
      allAdmit_inParens.mpr (allAdmit_children.mpr fun _ _ => trivial)

@[simp] theorem allAdmit_defaultValue (value : Option (Value L)) :
    AllAdmit next (defaultValue value) := by
  cases value <;> simp [defaultValue, Node.Admits]

@[simp] theorem allAdmit_argumentDefinitions (items : List (InputValueDefinition L)) :
    AllAdmit next (argumentDefinitions items) :=
      allAdmit_inParens.mpr (allAdmit_children.mpr fun _ _ => trivial)

@[simp] theorem allAdmit_interfaces (types : List (NamedType L)) :
    AllAdmit next (interfaces types) := by
  cases types with
  | nil => simp [interfaces]
  | cons =>
      exact allAdmit_cons.mpr ⟨trivial,
        allAdmit_separated.mpr (allAdmit_children.mpr fun _ _ => trivial)⟩

@[simp] theorem allAdmit_unionMembers (types : List (NamedType L)) :
    AllAdmit next (unionMembers types) := by
  cases types with
  | nil => simp [unionMembers]
  | cons =>
      exact allAdmit_cons.mpr ⟨trivial,
        allAdmit_separated.mpr (allAdmit_children.mpr fun _ _ => trivial)⟩

@[simp] theorem allAdmit_aliasName (name : Option (Name L)) :
    AllAdmit next (aliasName name) := by
  cases name <;> simp [aliasName, Node.Admits]

@[simp] theorem allAdmit_typeCondition (type : Option (NamedType L)) :
    AllAdmit next (typeCondition type) := by
  cases type <;> simp [typeCondition, Node.Admits]

end Part

open GraphQL.Part

theorem Definition.parts_admit {definition : Definition L}
    (admits : definition.Admits next) :
    AllAdmit next definition.parts := by
  cases definition with
  | operation definition =>
      cases name : definition.name <;> cases isShorthand : definition.isShorthand <;>
        simp [Definition.parts, OperationDefinition.parts, name, isShorthand,
          allAdmit_children, Node.Admits]
  | directive definition =>
      cases isRepeatable : definition.isRepeatable <;>
        simp [Definition.parts, DirectiveDefinition.parts, isRepeatable,
          allAdmit_children, Node.Admits]
  | object definition | interface definition =>
      simpa [Definition.parts, FieldedTypeDefinition.parts, allAdmit_children,
        Node.Admits, Definition.Admits, Definition.isBodyless] using admits
  | enum definition =>
      simpa [Definition.parts, EnumTypeDefinition.parts, allAdmit_children, Node.Admits,
        Definition.Admits, Definition.isBodyless] using admits
  | inputObject definition =>
      simpa [Definition.parts, InputObjectTypeDefinition.parts, allAdmit_children,
        Node.Admits, Definition.Admits, Definition.isBodyless] using admits
  | fragment => simp [Definition.parts, FragmentDefinition.parts, Node.Admits]
  | schema =>
      simp [Definition.parts, SchemaDefinition.parts, allAdmit_children, Node.Admits]
  | scalar => simp [Definition.parts, ScalarTypeDefinition.parts]
  | union => simp [Definition.parts, UnionTypeDefinition.parts]

/-- What may follow a node may follow all parts of it. -/
theorem Node.parts_admit {constness : Constness} {node : Node L}
    (admits : node.Admits next) :
    AllAdmit next (node.parts constness) := by
  cases node with
  | definition definition => exact definition.parts_admit admits
  | document document =>
      simpa [Node.parts, Document.parts, allAdmit_children, Node.Admits] using admits
  | selection selection =>
      cases selection with
      | field _ _ _ _ selectionSet =>
          cases selectionSet <;> simp [Node.parts, Selection.parts]
      | _ => simp [Node.parts, Selection.parts]
  | type type => cases type <;> simp [Node.parts, TypeReference.parts, Node.Admits]
  | value value =>
      cases value <;>
        simp [Node.parts, Value.parts, Variable.parts, allAdmit_children, Node.Admits]
  | selectionSet selections =>
      cases selections
      simp [Node.parts, SelectionSet.parts, allAdmit_children, Node.Admits]
  | member member =>
      cases member
      simp [Node.parts, ObjectMember.parts, Node.Admits]
  | _ =>
      simp [Node.parts, VariableDefinition.parts, OperationTypeDefinition.parts,
        FieldDefinition.parts,
        InputValueDefinition.parts, EnumValueDefinition.parts, Argument.parts,
          Directive.parts, Variable.parts,
        Node.Admits]

end GraphQL
