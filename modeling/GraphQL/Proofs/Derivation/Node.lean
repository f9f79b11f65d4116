import GraphQL.Proofs.Derivation.Phrase
import Mathlib.Tactic.Simproc.ExistsAndEq

/-! Productions as phrases. -/

namespace GraphQL

variable {α β : Type} {noteOf : Nat → Nat → Extent} {depth : Nat} {place after : Place}
variable {constness : Constness}

/-- What the nodes of some kind are written as -/
def Phrase.node (noteOf : Nat → Nat → Extent) (constness : Constness)
    (node : α → Node Extent) :
    Phrase α :=
  fun depth place value after => (node value).Derives noteOf depth constness place after

@[simp] theorem Phrase.node_iff {node : α → Node Extent} {value : α} :
    Phrase.node noteOf constness node depth place value after ↔
      (node value).Derives noteOf depth constness place after := Iff.rfl

namespace Spells

@[simp] theorem mark_iff {mark : Punctuator} {parts : List (Part Extent)} :
    Spells noteOf depth (.mark mark :: parts) place after ↔
      ∃ middle, place.Covers [.punctuator mark] middle ∧
      Spells noteOf depth parts middle after := by
  simp [Part.mark, Spelling.mark, Spelling.Fits]

@[simp] theorem word_iff {text : String} {parts : List (Part Extent)} :
    Spells noteOf depth (.word text :: parts) place after ↔
      ∃ middle, place.Covers [.name text] middle ∧
      Spells noteOf depth parts middle after := by
  simp [Part.word, Spelling.word, Spelling.Fits]

@[simp] theorem name_iff {name : Name Extent} {parts : List (Part Extent)} :
    Spells noteOf depth (.name name :: parts) place after ↔
      ∃ middle, (Node.name name).Derives noteOf depth .variable place middle ∧
        Spells noteOf depth parts middle after := child_iff

@[simp] theorem selectionSet_iff {selections : SelectionSet Extent}
    {parts : List (Part Extent)} :
    Spells noteOf depth (.selectionSet selections :: parts) place after ↔
      ∃ middle, (Node.selectionSet selections).Derives noteOf depth .variable
        place middle ∧
        Spells noteOf depth parts middle after := child_iff

theorem starts {found : Lexeme} {middle : Place} {parts : List (Part Extent)}
    (rest : Spells noteOf depth parts middle after)
    (covers : place.Covers [found] middle) :
    place.current = found ∧ place.ordinal < after.ordinal := by
  obtain ⟨covered, covers'⟩ := rest.covers
  refine ⟨covers.current, ?_⟩
  have le := covers'.le
  rw [covers.2] at le
  exact le

theorem children_iff {role : Role} {node : α → Node Extent} {items : List α} :
    Spells noteOf depth (items.map fun item =>
      .child role constness (node item)) place after ↔
      (Phrase.node noteOf constness node).star depth place items after := by
  induction items generalizing place with
  | nil => simp
  | cons item items induction => simp [induction]

theorem optional_iff {role : Role} {node : α → Node Extent} {item : Option α} :
    Spells noteOf depth (item.map fun item =>
      .child role constness (node item)).toList place after ↔
      ((Phrase.node noteOf constness node).bind fun item =>
        .pure (some item)).either (.pure none)
        depth place item after := by
  cases item <;> simp

theorem enclosed_iff (role : Role) {node : α → Node Extent} {items : List α}
    {opening closing : Punctuator} :
    Spells noteOf depth
        (.mark opening :: items.map (fun item => .child role constness (node item)) ++
          [.mark closing])
        place after ↔
      (Phrase.node noteOf constness node).enclosed opening closing depth place
        items after := by
  simp [Phrase.enclosed, children_iff]

theorem many_iff {role : Role} {node : α → Node Extent} {items : List α}
    {opening closing : Punctuator} :
    Spells noteOf depth
        (.provided (!items.isEmpty) :: .mark opening ::
          items.map (fun item => .child role constness (node item)) ++ [.mark closing])
        place after ↔
      (Phrase.node noteOf constness node).many opening closing depth place
        items after := by
  rw [List.cons_append, provided_iff, enclosed_iff role, Phrase.many]
  simp

theorem inParens_iff {role : Role} {node : α → Node Extent} {items : List α} :
    Spells noteOf depth
        (Part.inParens (items.map fun item => .child role constness (node item))) place
          after ↔
      ((Phrase.node noteOf constness node).many .leftParen .rightParen).either
        (.pure []) depth place
        items after := by
  cases items with
  | nil => simp [Part.inParens, Phrase.many]
  | cons item items =>
      rw [Phrase.either_iff, Phrase.many, ← enclosed_iff role]
      simp [Part.inParens]

theorem inBraces_iff {role : Role} {node : α → Node Extent} {items : List α} :
    Spells noteOf depth
        (Part.inBraces (items.map fun item => .child role constness (node item))) place
          after ↔
      ((Phrase.node noteOf constness node).many .leftBrace
        .rightBrace).barring [] [.mark .leftBrace]
        depth place items after := by
  cases items with
  | nil => simp [Part.inBraces, Phrase.many, Phrase.barring, and_comm]
  | cons item items =>
      rw [Phrase.barring, Phrase.either_iff, Phrase.many, ← enclosed_iff role]
      simp [Part.inBraces]

theorem prefixed_iff {role : Role} {node : α → Node Extent} {items : List α}
    {separator : Punctuator} :
    Spells noteOf depth
        ((items.map fun item => .child role constness (node item)).flatMap
          ([.mark separator, ·]))
        place after ↔
      ((Phrase.spelled (.mark separator)).bind fun _ =>
        Phrase.node noteOf constness node).star depth
        place items after := by
  induction items generalizing place with
  | nil => simp
  | cons item items induction =>
      rw [List.map_cons, List.flatMap_cons, append_iff]
      simp [induction]

theorem separated_iff {role : Role} {node : α → Node Extent} {items : List α}
    {separator : Punctuator} (nonempty : items ≠ []) :
    Spells noteOf depth
        (Part.separated separator
          (items.map fun item => .child role constness (node item))) place
        after ↔
      (Phrase.node noteOf constness node).separated separator depth place
        items after := by
  obtain ⟨item, items, rfl⟩ := List.exists_cons_of_ne_nil nonempty
  rw [List.map_cons, Part.separated, perhaps_iff, ← Part.mark, mark_iff]
  simp [Phrase.separated, Phrase.perhaps, prefixed_iff]

theorem flag_iff {text : String} {isThere : Bool} :
    Spells noteOf depth (if isThere then [.word text] else []) place after ↔
      Phrase.perhaps (.word text) depth place isThere after := by
  cases isThere <;> simp [Phrase.perhaps]

theorem separated_ne_nil {phrase : Phrase α} {items : List α} {separator : Punctuator}
    (holds : phrase.separated separator depth place items after) : items ≠ [] := by
  obtain ⟨_, _, _, _, _, _, _, _, _, rfl, _⟩ := holds
  simp

end Spells

@[simp] theorem Name.derives_iff {name : Name Extent} :
    (Node.name name).Derives noteOf depth constness place after ↔
      place.Covers [.name name.text] after ∧
      name.location = noteOf place.ordinal after.ordinal := by
  rw [Node.derives_iff rfl]
  simp [Node.parts, Node.location]

def StringValue.lexeme (string : StringValue L) : Lexeme :=
  if string.isBlock then .blockString string.value else .string string.value

theorem StringValue.derives_iff {string : StringValue Extent} :
    (Node.description string).Derives noteOf depth constness place after ↔
      place.Covers [string.lexeme] after ∧
        string.location = noteOf place.ordinal after.ordinal := by
  rw [Node.derives_iff rfl]
  simp [Node.parts, Node.location, StringValue.spelling, StringValue.lexeme,
    Spelling.Fits]

/-! ## Nested parts -/

/-- What a node is written as, apart from the level it takes -/
def Phrase.body (noteOf : Nat → Nat → Extent) (constness : Constness)
    (node : α → Node Extent) :
    Phrase α :=
  fun depth place value after =>
    Spells noteOf depth ((node value).parts constness) place after ∧
    (node value).location = noteOf place.ordinal after.ordinal

@[simp] theorem Phrase.body_iff {node : α → Node Extent} {value : α} :
    Phrase.body noteOf constness node depth place value after ↔
      Spells noteOf depth ((node value).parts constness) place after ∧
        (node value).location = noteOf place.ordinal after.ordinal := Iff.rfl

theorem Node.derives_iff_of_nested {node : Node Extent} (nested : node.isNested = true) :
    node.Derives noteOf depth constness place after ↔
      ∃ shallower, depth = shallower + 1 ∧
      Spells noteOf shallower (node.parts constness) place after ∧
        node.location = noteOf place.ordinal after.ordinal := by
  simp [Node.Derives, Node.levels, nested]

def TypeReference.isList : TypeReference L → Bool
  | .list _ _ => true
  | _ => false

namespace Value

def isList : Value L → Bool
  | .list _ _ => true
  | _ => false

def isObject : Value L → Bool
  | .object _ _ => true
  | _ => false

end Value

namespace Nonterminal

def phrase (noteOf : Nat → Nat → Extent) : (part : Nonterminal) → Phrase part.Tree
  | selectionSet => Phrase.body noteOf .variable .selectionSet
  | list constness => fun depth place (value : Value Extent) after =>
      value.isList = true ∧ Phrase.body noteOf constness .value depth place value after
  | object constness => fun depth place (value : Value Extent) after =>
      value.isObject = true ∧ Phrase.body noteOf constness .value depth place value after
  | listElement => Phrase.node noteOf .constant .type

def profile : Nonterminal → Profile
  | selectionSet =>
      ⟨false, [.mark .leftBrace], [], [],
        [.punctuator .leftBrace, .name "a", .punctuator .rightBrace]⟩
  | list _ =>
      ⟨false, [.mark .leftBracket], [], [],
        [.punctuator .leftBracket, .punctuator .rightBracket]⟩
  | object _ =>
      ⟨false, [.mark .leftBrace], [], [],
        [.punctuator .leftBrace, .punctuator .rightBrace]⟩
  | listElement =>
      ⟨false, [.mark .leftBracket, .kind .name], [.mark .bang], [], [.name "a"]⟩

theorem starts_type {type : TypeReference Extent}
    (derives : (Node.type type).Derives noteOf depth constness place after) :
    (place.current = .punctuator .leftBracket ∨ place.current.kind = .name) ∧
      place.ordinal < after.ordinal := by
  induction type generalizing depth constness after with
  | named type =>
      rw [Node.derives_iff rfl] at derives
      simp only [Node.parts, TypeReference.parts, Part.name, Spells.child_iff,
        Name.derives_iff, Spells.nil_iff] at derives
      obtain ⟨⟨middle, ⟨covers, _⟩, rfl⟩, _⟩ := derives
      have nothing : Spells noteOf depth [] after after := .nil
      obtain ⟨current, lt⟩ := nothing.starts covers
      exact ⟨.inr (by rw [current]; rfl), lt⟩
  | list inner location _ =>
      obtain ⟨_, _, spells, _⟩ := (Node.derives_iff_of_nested rfl).mp derives
      simp only [Node.parts, TypeReference.parts, Spells.mark_iff] at spells
      obtain ⟨middle, covers, rest⟩ := spells
      exact (rest.starts covers).imp_left .inl
  | nonNull inner location induction =>
      rw [Node.derives_iff rfl] at derives
      simp only [Node.parts, TypeReference.parts, Spells.provided_iff, Spells.child_iff,
        Spells.mark_iff] at derives
      obtain ⟨⟨_, middle, derives, _, covers, rest⟩, _⟩ := derives
      obtain ⟨current, lt⟩ := induction derives
      exact ⟨current, Nat.lt_trans lt (rest.starts covers).2⟩

theorem describes (part : Nonterminal) :
    part.profile.Describes (part.phrase noteOf).deeper where
  starts := by
    rintro depth place tree after ⟨shallower, rfl, holds⟩
    right
    cases part with
    | selectionSet =>
        obtain ⟨selections, location⟩ := tree
        obtain ⟨spells, _⟩ := holds
        simp only [Node.parts, SelectionSet.parts, List.cons_append, Spells.provided_iff,
          Spells.mark_iff] at spells
        obtain ⟨_, middle, covers, rest⟩ := spells
        exact (rest.starts covers).imp_left fun current => by simp [profile, current]
    | list constness =>
        obtain ⟨isList, spells, _⟩ := holds
        cases tree <;> simp only [Value.isList, reduceCtorEq] at isList
        simp only [Node.parts, Value.parts, List.cons_append, Spells.mark_iff] at spells
        obtain ⟨middle, covers, rest⟩ := spells
        exact (rest.starts covers).imp_left fun current => by simp [profile, current]
    | object constness =>
        obtain ⟨isObject, spells, _⟩ := holds
        cases tree <;> simp only [Value.isObject, reduceCtorEq] at isObject
        simp only [Node.parts, Value.parts, List.cons_append, Spells.mark_iff] at spells
        obtain ⟨middle, covers, rest⟩ := spells
        exact (rest.starts covers).imp_left fun current => by simp [profile, current]
    | listElement =>
        exact (starts_type holds).imp_left fun current => by simpa [profile] using current
  sample := by
    intro depth ahead ordinal positive _
    obtain ⟨depth, rfl⟩ := Nat.exists_eq_add_of_le' positive
    cases part with
    | selectionSet =>
        let name : Name Extent := ⟨"a", noteOf (ordinal + 1) (ordinal + 2)⟩
        refine ⟨.mk [.field none name [] [] none name.location]
          (noteOf ordinal (ordinal + 3)),
          depth, rfl, ?_, rfl⟩
        simp only [Node.parts, SelectionSet.parts, List.map_cons, List.map_nil,
          List.cons_append,
          Spells.provided_iff, Spells.mark_iff, Spells.child_iff, Node.derives_iff (show
            (Node.selection (.field none name [] [] none name.location)).isNested =
              false from rfl)]
        simp [Selection.parts, profile, name, Part.aliasName, Part.arguments,
          Part.inParens, Part.directives, Part.name, Node.location, Selection.location]
    | list constness =>
        refine ⟨.list [] (noteOf ordinal (ordinal + 2)), depth, rfl, rfl, ?_, rfl⟩
        simp [Value.parts, Node.parts, profile]
    | object constness =>
        refine ⟨.object [] (noteOf ordinal (ordinal + 2)), depth, rfl, rfl, ?_, rfl⟩
        simp [Value.parts, Node.parts, profile]
    | listElement =>
        let extent := noteOf ordinal (ordinal + 1)
        refine ⟨.named ⟨⟨"a", extent⟩, extent⟩, depth, rfl, ?_⟩
        rw [phrase, Phrase.node_iff, Node.derives_iff rfl]
        simp [Node.parts, TypeReference.parts, Node.location,
          TypeReference.location, Part.name, profile, extent]

end Nonterminal

end GraphQL
