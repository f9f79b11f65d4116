import GraphQL.Proofs.Derivation.Basic
import GraphQL.Proofs.Derivation.Following
import Mathlib.Data.List.Forall2

/-! What may change about a derivation.

What a node is written as does not depend on the notes in the tree, so a derivation
stays one when the notes are replaced. It may stand elsewhere, variables may be
allowed where there are none, and there need not be more levels than tokens. -/

namespace GraphQL

variable {L M : Type} (note : L → M)

def Node.map : Node L → Node M
  | .document node => .document (node.map note)
  | .definition node => .definition (node.map note)
  | .variableDefinition node => .variableDefinition (node.map note)
  | .operationTypeDefinition node => .operationTypeDefinition (node.map note)
  | .fieldDefinition node => .fieldDefinition (node.map note)
  | .inputValueDefinition node => .inputValueDefinition (node.map note)
  | .enumValueDefinition node => .enumValueDefinition (node.map note)
  | .selectionSet node => .selectionSet (node.map note)
  | .selection node => .selection (node.map note)
  | .argument node => .argument (node.map note)
  | .directive node => .directive (node.map note)
  | .description node => .description (node.map note)
  | .name node => .name (node.map note)
  | .namedType node => .namedType (node.map note)
  | .type node => .type (node.map note)
  | .value node => .value (node.map note)
  | .member node => .member (node.map note)
  | .variable node => .variable (node.map note)

def Part.map : Part L → Part M
  | .token spelling => .token spelling
  | .perhaps spelling => .perhaps spelling
  | .provided condition => .provided condition
  | .notBefore mark => .notBefore mark
  | .child role constness node => .child role constness (node.map note)

/-! ## Parts of nodes -/

theorem Value.mapAll_eq (values : List (Value L)) :
    Value.mapAll note values = values.map (·.map note) := by
  induction values with
  | nil => rfl
  | cons value values induction => rw [Value.mapAll, List.map_cons, induction]

theorem ObjectMember.mapAll_eq (members : List (ObjectMember L)) :
    ObjectMember.mapAll note members = members.map (·.map note) := by
  induction members with
  | nil => rfl
  | cons member members induction => rw [ObjectMember.mapAll, List.map_cons, induction]

theorem Selection.mapAll_eq (selections : List (Selection L)) :
    Selection.mapAll note selections = selections.map (·.map note) := by
  induction selections with
  | nil => rfl
  | cons selection selections induction => rw [Selection.mapAll, List.map_cons, induction]

namespace Part

@[simp] theorem map_token (spelling : Spelling) :
    (token spelling : Part L).map note = token spelling := rfl

@[simp] theorem map_perhaps (spelling : Spelling) :
    (perhaps spelling : Part L).map note = perhaps spelling := rfl

@[simp] theorem map_provided (condition : Bool) :
    (provided condition : Part L).map note = provided condition := rfl

@[simp] theorem map_notBefore (mark : Punctuator) :
    (notBefore mark : Part L).map note = notBefore mark := rfl

@[simp] theorem map_child (role : Role) (constness : Constness) (node : Node L) :
    (child role constness node).map note = child role constness (node.map note) := rfl

@[simp] theorem map_mark (punctuator : Punctuator) :
    (mark punctuator : Part L).map note = mark punctuator := rfl

@[simp] theorem map_word (text : String) :
    (word text : Part L).map note = word text := rfl

@[simp] theorem map_name (name : Name L) :
    (Part.name name).map note = .name (name.map note) := rfl

@[simp] theorem map_inParens (items : List (Part L)) :
    (inParens items).map (·.map note) = inParens (items.map (·.map note)) := by
  cases items <;> simp [inParens]

@[simp] theorem map_inBraces (items : List (Part L)) :
    (inBraces items).map (·.map note) = inBraces (items.map (·.map note)) := by
  cases items <;> simp [inBraces]

@[simp] theorem map_separated (separator : Punctuator) (items : List (Part L)) :
    (separated separator items).map (·.map note) =
      separated separator (items.map (·.map note)) := by
  cases items <;> simp [separated, List.map_flatMap, List.flatMap_map]

@[simp] theorem map_description (string : Option (StringValue L)) :
    (description string).map (·.map note) = description (string.map (·.map note)) := by
  cases string <;> rfl

@[simp] theorem map_directives (constness : Constness) (items : List (Directive L)) :
    (directives constness items).map (·.map note) =
      directives constness (items.map (·.map note)) := by
  simp [directives, Node.map]

@[simp] theorem map_arguments (constness : Constness) (items : List (Argument L)) :
    (arguments constness items).map (·.map note) =
      arguments constness (items.map (·.map note)) := by
  simp [arguments, Node.map, Function.comp_def]

@[simp] theorem map_defaultValue (value : Option (Value L)) :
    (defaultValue value).map (·.map note) = defaultValue (value.map (·.map note)) := by
  cases value <;> simp [defaultValue, Node.map]

@[simp] theorem map_argumentDefinitions (items : List (InputValueDefinition L)) :
    (argumentDefinitions items).map (·.map note) =
      argumentDefinitions (items.map (·.map note)) := by
  simp [argumentDefinitions, Node.map, Function.comp_def]

@[simp] theorem map_interfaces (types : List (NamedType L)) :
    (interfaces types).map (·.map note) = interfaces (types.map (·.map note)) := by
  cases types <;> simp [interfaces, Node.map, Function.comp_def]

@[simp] theorem map_unionMembers (types : List (NamedType L)) :
    (unionMembers types).map (·.map note) = unionMembers (types.map (·.map note)) := by
  cases types <;> simp [unionMembers, Node.map, Function.comp_def]

@[simp] theorem map_aliasName (name : Option (Name L)) :
    (aliasName name).map (·.map note) = aliasName (name.map (·.map note)) := by
  cases name <;> simp [aliasName, Node.map]

@[simp] theorem map_typeCondition (type : Option (NamedType L)) :
    (typeCondition type).map (·.map note) = typeCondition (type.map (·.map note)) := by
  cases type <;> simp [typeCondition, Node.map]

end Part

theorem TypeReference.isNullable_map (type : TypeReference L) :
    (type.map note).isNullable = type.isNullable := by
  cases type <;> rfl

theorem OperationDefinition.isShorthand_map (definition : OperationDefinition L) :
    (definition.map note).isShorthand = definition.isShorthand := by
  simp [isShorthand, OperationDefinition.map]

theorem OperationDefinition.parts_map (definition : OperationDefinition L) :
    (definition.map note).parts = definition.parts.map (·.map note) := by
  have same := definition.isShorthand_map note
  unfold OperationDefinition.parts
  rw [same]
  cases definition.isShorthand <;> cases name : definition.name <;>
    simp [OperationDefinition.map, Node.map, Part.selectionSet, Function.comp_def, name]

theorem DirectiveDefinition.parts_map (definition : DirectiveDefinition L) :
    (definition.map note).parts = definition.parts.map (·.map note) := by
  cases isRepeatable : definition.isRepeatable <;>
    simp [DirectiveDefinition.parts, DirectiveDefinition.map, Node.map, Name.map,
      Function.comp_def, isRepeatable]

theorem Selection.parts_map (selection : Selection L) :
    (selection.map note).parts = selection.parts.map (·.map note) := by
  cases selection with
  | field _ _ _ _ selectionSet =>
      cases selectionSet <;>
        simp [Selection.parts, Selection.map, Part.selectionSet,
          SelectionSet.mapOption, Node.map]
  | _ => simp [Selection.parts, Selection.map, Part.selectionSet, Node.map, Name.map]

theorem Value.parts_map (constness : Constness) (value : Value L) :
    (value.map note).parts constness = (value.parts constness).map (·.map note) := by
  cases value <;>
    simp [Value.parts, Value.map, Value.mapAll_eq, ObjectMember.mapAll_eq, Variable.parts,
    Variable.map, StringValue.spelling, StringValue.map, Node.map, Function.comp_def]

theorem Node.parts_map (constness : Constness) (node : Node L) :
    (node.map note).parts constness = (node.parts constness).map (·.map note) := by
  cases node with
  | definition definition =>
      cases definition with
      | operation definition => exact definition.parts_map note
      | directive definition => exact definition.parts_map note
      | _ definition =>
          simp [Node.map, Definition.map, Node.parts, Definition.parts,
            FragmentDefinition.parts,
            SchemaDefinition.parts, ScalarTypeDefinition.parts,
              FieldedTypeDefinition.parts,
            UnionTypeDefinition.parts, EnumTypeDefinition.parts,
              InputObjectTypeDefinition.parts,
            FragmentDefinition.map, SchemaDefinition.map, ScalarTypeDefinition.map,
            FieldedTypeDefinition.map, UnionTypeDefinition.map, EnumTypeDefinition.map,
            InputObjectTypeDefinition.map, Part.selectionSet, Name.map, Function.comp_def]
  | selection selection => exact selection.parts_map note
  | type type =>
      cases type <;>
        simp [Node.map, Node.parts, TypeReference.parts, TypeReference.map, NamedType.map,
        TypeReference.isNullable_map]
  | value value => exact value.parts_map note constness
  | selectionSet selectionSet =>
      cases selectionSet
      simp [Node.map, Node.parts, SelectionSet.parts, SelectionSet.map,
        Selection.mapAll_eq, Function.comp_def]
  | member member =>
      cases member
      simp [Node.map, Node.parts, ObjectMember.parts, ObjectMember.map]
  | _ node =>
      simp [Node.map, Node.parts, Document.parts, VariableDefinition.parts,
        OperationTypeDefinition.parts, FieldDefinition.parts, InputValueDefinition.parts,
        EnumValueDefinition.parts, Argument.parts, Directive.parts,
          Variable.parts, Document.map,
        VariableDefinition.map, OperationTypeDefinition.map, FieldDefinition.map,
        InputValueDefinition.map, EnumValueDefinition.map, Argument.map, Directive.map,
        Variable.map, Name.map, NamedType.map, StringValue.map, StringValue.spelling,
          Function.comp_def]

theorem Node.location_map (node : Node L) :
    (node.map note).location = note node.location := by
  cases node with
  | definition node => cases node <;> rfl
  | type node => cases node <;> rfl
  | value node => cases node <;> rfl
  | selection node => cases node <;> rfl
  | selectionSet node => cases node; rfl
  | member node => cases node; rfl
  | _ => rfl

theorem Node.isNested_map (node : Node L) : (node.map note).isNested = node.isNested := by
  cases node with
  | type node => cases node <;> rfl
  | value node => cases node <;> rfl
  | _ => rfl

/-! ## Derivations elsewhere -/

theorem Place.Covers.cancel {place after : Place} {covered covered' : List Lexeme}
    (covers : place.Covers covered after) (covers' : place.Covers covered' after) :
    covered = covered' :=
  List.append_cancel_right (covers.1.symm.trans covers'.1)

theorem Place.Covers.number_eq {number : Nat → Nat} {place after : Place} {found : Lexeme}
    (covers : place.Covers [found] after)
    (counts : ∀ ordinal, place.ordinal ≤ ordinal →
      number (ordinal + 1) = number ordinal + 1) :
    number after.ordinal = number place.ordinal + 1 := by
  rw [covers.2]
  exact counts _ (Nat.le_refl _)

/-- The same tokens are a derivation of the same, with other notes and numbers and in
front of other tokens that may follow. -/
theorem Spells.move {noteOf : Nat → Nat → L} {noteOf' : Nat → Nat → M}
    {number : Nat → Nat} {depth : Nat}
    {parts : List (Part L)} {place after : Place} {covered rest : List Lexeme}
    (spells : Spells noteOf depth parts place after)
    (same : ∀ first last, place.ordinal ≤ first → first < last → last ≤ after.ordinal →
      noteOf' (number first) (number last) = note (noteOf first last))
        (covers : place.Covers covered after)
    (counts : ∀ ordinal, place.ordinal ≤ ordinal →
      number (ordinal + 1) = number ordinal + 1)
    (clear : foremost rest = after.current ∨ Part.AllAdmit (foremost rest) parts) :
    Spells noteOf' depth (parts.map (·.map note)) ⟨number place.ordinal, covered ++ rest⟩
      ⟨number after.ordinal, rest⟩ := by
  induction spells generalizing covered rest with
  | nil =>
      obtain rfl := covers.cancel ((Place.covers_nil _ _).mpr rfl)
      exact .nil
  | token taken fits rest' induction =>
      obtain ⟨behind, covers'⟩ := rest'.covers
      obtain rfl := covers.cancel (taken.trans covers')
      have spells :=
        induction (fun first last least =>
          same first last (Nat.le_trans taken.le least)) covers'
            (fun ordinal least => counts ordinal (Nat.le_trans taken.le least))
            (clear.imp_right Part.AllAdmit.tail)
      rw [taken.number_eq counts] at spells
      exact .token ⟨rfl, rfl⟩ fits spells
  | leftOut _ induction =>
      exact .leftOut (induction same covers counts (clear.imp_right Part.AllAdmit.tail))
  | putIn taken fits rest' induction =>
      obtain ⟨behind, covers'⟩ := rest'.covers
      obtain rfl := covers.cancel (taken.trans covers')
      have spells :=
        induction (fun first last least =>
          same first last (Nat.le_trans taken.le least)) covers'
            (fun ordinal least => counts ordinal (Nat.le_trans taken.le least))
            (clear.imp_right Part.AllAdmit.tail)
      rw [taken.number_eq counts] at spells
      exact .putIn ⟨rfl, rfl⟩ fits spells
  | provided holds _ induction =>
      exact .provided holds
        (induction same covers counts (clear.imp_right Part.AllAdmit.tail))
  | notBefore other _ induction =>
      refine .notBefore ?_
        (induction same covers counts (clear.imp_right Part.AllAdmit.tail))
      cases covered with
      | nil =>
          obtain rfl := (Place.covers_nil _ _).mp covers
          rcases clear with equal | all
          · exact fun is => other (equal.symm.trans is)
          · exact all.head
      | cons found covered => exact fun is => other (covers.current.trans is)
  | @child _ _ _ constness node parts _ middle _ levels inside location rest' induction
      induction' =>
      obtain ⟨before, covers'⟩ := inside.covers
      obtain ⟨behind, covers''⟩ := rest'.covers
      obtain rfl := covers.cancel (covers'.trans covers'')
      have spells :=
        induction' (fun first last least =>
          same first last (Nat.le_trans covers'.le least))
            covers'' (fun ordinal least => counts ordinal (Nat.le_trans covers'.le least))
            (clear.imp_right Part.AllAdmit.tail)
      have clear' : foremost (behind ++ rest) = middle.current ∨
          Part.AllAdmit (foremost (behind ++ rest)) (node.parts constness) := by
        cases behind with
        | nil =>
            obtain rfl := (Place.covers_nil _ _).mp covers''
            exact clear.imp_right fun all => Node.parts_admit all.head
        | cons found behind => exact .inl covers''.current.symm
      have spells' := induction (fun first last least lt most =>
        same first last least lt (Nat.le_trans most covers''.le)) covers' counts clear'
      rw [← Node.parts_map] at spells'
      rw [List.append_assoc]
      refine .child ?_ spells' ?_ spells
      · rw [Node.levels, Node.isNested_map]
        exact levels
      · rw [Node.location_map, location]
        exact (same _ _ (Nat.le_refl _)
          (inside.lt (Node.parts_isSolid _ _)) covers''.le).symm

theorem Node.Derives.move {noteOf : Nat → Nat → L} {noteOf' : Nat → Nat → M}
    {number : Nat → Nat} {depth : Nat}
    {constness : Constness} {node : Node L} {place after : Place}
    {covered rest : List Lexeme}
    (derives : node.Derives noteOf depth constness place after)
    (same : ∀ first last, place.ordinal ≤ first → first < last → last ≤ after.ordinal →
      noteOf' (number first) (number last) = note (noteOf first last))
        (covers : place.Covers covered after)
    (counts : ∀ ordinal, place.ordinal ≤ ordinal →
      number (ordinal + 1) = number ordinal + 1)
    (clear : foremost rest = after.current ∨ node.Admits (foremost rest)) :
    (node.map note).Derives noteOf' depth constness
      ⟨number place.ordinal, covered ++ rest⟩
      ⟨number after.ordinal, rest⟩ := by
  have lt := derives.lt
  obtain ⟨inner, levels, spells, location⟩ := derives
  refine ⟨inner, ?_, ?_, ?_⟩
  · rw [levels, Node.levels, Node.levels, Node.isNested_map]
  · rw [Node.parts_map]
    exact spells.move note same covers counts (clear.imp_right Node.parts_admit)
  · rw [Node.location_map, location]
    exact (same _ _ (Nat.le_refl _) lt (Nat.le_refl _)).symm

theorem Spells.map {noteOf : Nat → Nat → L} {depth : Nat} {parts : List (Part L)}
    {place after : Place} (spells : Spells noteOf depth parts place after) :
    Spells (fun first last => note (noteOf first last)) depth
      (parts.map (·.map note)) place after := by
  obtain ⟨covered, covers⟩ := spells.covers
  let noteOf' : Nat → Nat → M := fun first last => note (noteOf first last)
  have same : ∀ first last, place.ordinal ≤ first → first < last → last ≤ after.ordinal →
      noteOf' (id first) (id last) = note (noteOf first last) := fun _ _ _ _ _ => rfl
  have moved := spells.move note same covers (fun _ _ => rfl) (.inl rfl)
  rwa [← covers.1] at moved

theorem Node.Derives.map {noteOf : Nat → Nat → L} {depth : Nat} {constness : Constness}
    {node : Node L}
    {place after : Place} (derives : node.Derives noteOf depth constness place after) :
    (node.map note).Derives
      (fun first last => note (noteOf first last)) depth constness place after := by
  obtain ⟨inner, levels, spells, location⟩ := derives
  refine ⟨inner, ?_, ?_, ?_⟩
  · rw [levels, Node.levels, Node.levels, Node.isNested_map]
  · rw [Node.parts_map]
    exact spells.map note
  · rw [Node.location_map, location]

/-! ## Constants -/

/-- The second part is written like the first, but variables may be allowed. -/
inductive Part.Relaxes : Part L → Part L → Prop
  | same (part : Part L) : Relaxes part part
  | provided {condition condition' : Bool} : (condition = true → condition' = true) →
      Relaxes (.provided condition) (.provided condition')
  | child (role : Role) (constness : Constness) (node : Node L) :
      Relaxes (.child role constness node) (.child role .variable node)

theorem Part.relaxes_refl (parts : List (Part L)) :
    List.Forall₂ Part.Relaxes parts parts :=
  List.forall₂_same.mpr fun part _ => .same part

theorem Part.relaxes_children {α : Type} (role : Role) (constness : Constness)
    (node : α → Node L) (items : List α) :
    List.Forall₂ Part.Relaxes (items.map fun item => .child role constness (node item))
      (items.map fun item => .child role .variable (node item)) := by
  induction items with
  | nil => exact .nil
  | cons item items induction => exact .cons (.child _ _ _) induction

theorem Node.parts_relaxes (constness : Constness) (node : Node L) :
    List.Forall₂ Part.Relaxes (node.parts constness) (node.parts .variable) := by
  have closed : ∀ {parts parts' : List (Part L)} (opening closing : Part L),
      List.Forall₂ Part.Relaxes parts parts' →
        List.Forall₂ Part.Relaxes (opening :: parts ++ [closing])
          (opening :: parts' ++ [closing]) :=
    fun opening closing inside =>
      List.rel_append (.cons (.same opening) inside) (Part.relaxes_refl [closing])
  cases node with
  | value value =>
      cases value with
      | list items _ => exact closed _ _ (Part.relaxes_children ..)
      | object members _ => exact closed _ _ (Part.relaxes_children ..)
      | «variable» named => exact .cons (.provided fun _ => rfl) (Part.relaxes_refl _)
      | _ => exact Part.relaxes_refl _
  | member member =>
      cases member
      exact .cons (.same _) (.cons (.same _) (.cons (.child _ _ _) .nil))
  | argument argument =>
      exact .cons (.same _) (.cons (.same _) (.cons (.child _ _ _) .nil))
  | directive directive =>
      refine .cons (.same _) (.cons (.same _) ?_)
      cases arguments : directive.arguments with
      | nil => exact .nil
      | cons => exact closed _ _ (Part.relaxes_children ..)
  | _ => exact Part.relaxes_refl _

/-- What may not hold variables may stand where it might. -/
theorem Spells.relax {noteOf : Nat → Nat → L} {depth : Nat} {parts parts' : List (Part L)}
    {place after : Place} (spells : Spells noteOf depth parts place after)
    (relaxes : List.Forall₂ Part.Relaxes parts parts') :
    Spells noteOf depth parts' place after := by
  induction spells generalizing parts' with
  | nil =>
      cases relaxes
      exact .nil
  | token covers fits _ induction =>
      obtain _ | ⟨⟨⟩, relaxes⟩ := relaxes
      exact .token covers fits (induction relaxes)
  | leftOut _ induction =>
      obtain _ | ⟨⟨⟩, relaxes⟩ := relaxes
      exact .leftOut (induction relaxes)
  | putIn covers fits _ induction =>
      obtain _ | ⟨⟨⟩, relaxes⟩ := relaxes
      exact .putIn covers fits (induction relaxes)
  | provided holds _ induction =>
      obtain _ | ⟨_ | implies, relaxes⟩ := relaxes
      · exact .provided holds (induction relaxes)
      · exact .provided (implies holds) (induction relaxes)
  | notBefore other _ induction =>
      obtain _ | ⟨⟨⟩, relaxes⟩ := relaxes
      exact .notBefore other (induction relaxes)
  | child levels inside location _ induction induction' =>
      obtain _ | ⟨_ | _ | _, relaxes⟩ := relaxes
      · exact .child levels inside location (induction' relaxes)
      · exact .child levels (induction (Node.parts_relaxes _ _)) location
          (induction' relaxes)

theorem Node.Derives.relax {noteOf : Nat → Nat → L} {depth : Nat} {constness : Constness}
    {node : Node L} {place after : Place}
    (derives : node.Derives noteOf depth constness place after) :
    node.Derives noteOf depth .variable place after := by
  obtain ⟨inner, levels, spells, location⟩ := derives
  exact ⟨inner, levels, spells.relax (node.parts_relaxes constness), location⟩

/-! ## Levels -/

def Part.isToken : Part L → Bool
  | .token _ => true
  | .perhaps _ | .provided _ | .notBefore _ | .child _ _ _ => false

theorem Node.levels_le (constness : Constness) (node : Node L) :
    node.levels ≤ (node.parts constness).countP Part.isToken := by
  cases isNested : node.isNested with
  | false => simp [Node.levels, isNested]
  | true =>
      have positive : 0 < (node.parts constness).countP Part.isToken := by
        rw [List.countP_pos_iff]
        cases node with
        | selectionSet node =>
            cases node
            exact ⟨.mark .leftBrace, by simp [Node.parts, SelectionSet.parts], rfl⟩
        | value value =>
            cases value with
            | list => exact ⟨.mark .leftBracket, by simp [Node.parts, Value.parts], rfl⟩
            | object => exact ⟨.mark .leftBrace, by simp [Node.parts, Value.parts], rfl⟩
            | _ => cases isNested
        | type type =>
            cases type with
            | list =>
                exact ⟨.mark .leftBracket, by simp [Node.parts, TypeReference.parts], rfl⟩
            | _ => cases isNested
        | _ => cases isNested
      simpa [Node.levels, isNested] using positive

theorem Spells.levels_le {noteOf : Nat → Nat → L} {depth : Nat} {parts : List (Part L)}
    {place after : Place} (spells : Spells noteOf depth parts place after) :
    ∃ used, Spells noteOf used parts place after ∧
      place.ordinal + used + parts.countP Part.isToken ≤ after.ordinal := by
  induction spells with
  | nil => exact ⟨0, .nil, by simp⟩
  | token covers fits _ induction =>
      obtain ⟨used, spells, le⟩ := induction
      refine ⟨used, .token covers fits spells, ?_⟩
      rw [covers.2] at le
      simp only [List.countP_cons, Part.isToken, if_true, List.length_singleton] at le ⊢
      omega
  | leftOut _ induction =>
      obtain ⟨used, spells, le⟩ := induction
      exact ⟨used, .leftOut spells, by simpa [List.countP_cons, Part.isToken] using le⟩
  | putIn covers fits _ induction =>
      obtain ⟨used, spells, le⟩ := induction
      refine ⟨used, .putIn covers fits spells, ?_⟩
      rw [covers.2] at le
      simp only [List.countP_cons, Part.isToken, List.length_singleton] at le ⊢
      simp only [Bool.false_eq_true, if_false]
      omega
  | provided holds _ induction =>
      obtain ⟨used, spells, le⟩ := induction
      exact ⟨used, .provided holds spells, by
        simpa [List.countP_cons, Part.isToken] using le⟩
  | notBefore other _ induction =>
      obtain ⟨used, spells, le⟩ := induction
      exact ⟨used, .notBefore other spells, by
        simpa [List.countP_cons, Part.isToken] using le⟩
  | @child _ _ _ constness node _ _ _ _ _ _ location _ inside rest =>
      obtain ⟨used, spells, le⟩ := inside
      obtain ⟨used', spells', le'⟩ := rest
      have levels := node.levels_le constness
      refine ⟨max (used + node.levels) used', ?_, ?_⟩
      · obtain ⟨more, equal⟩ :=
          Nat.exists_eq_add_of_le (Nat.le_max_left (used + node.levels) used')
        have split : used + node.levels + more = used + more + node.levels :=
          Nat.add_right_comm ..
        rw [equal]
        exact .child split (spells.mono (by omega)) location (spells'.mono (by omega))
      · simp only [List.countP_cons, Part.isToken, Bool.false_eq_true, if_false]
        omega

end GraphQL
