import GraphQL.Proofs.Derivation.Notes
import GraphQL.Proofs.Derivation.Variation
import GraphQL.Proofs.Lexing.Names
import GraphQL.Proofs.Parsing.Spans

/-! What holds of every tree that is read.

A production makes conditions on its node, and a derivation meets them. The words that it
takes from tokens are names, since the tokens are. -/

namespace GraphQL

open ParseOptions (Note)

variable {L M : Type}

/-! ## Sound nodes -/

/-- What holds of a node by itself, once it has been read -/
def Node.IsSound : Node L → Prop
  | .document node => node.definitions ≠ []
  | .definition (.fragment node) => node.name.text ≠ "on"
  | .definition (.schema node) => node.operationTypes ≠ []
  | .definition (.directive node) => node.locations ≠ [] ∧
      node.locationKinds.map DirectiveLocation.name = node.locations.map (·.text)
  | .selectionSet (.mk selections _) => selections ≠ []
  | .selection (.spread spread _ _) => spread.text ≠ "on"
  | .name node => IsName node.text
  | .type (.nonNull inner _) => inner.isNullable = true
  | .value (.enum word _) => IsName word ∧ word ∉ ["true", "false", "null"]
  | _ => True

theorem DirectiveLocation.name_of_ofName? {text : String} {place : DirectiveLocation}
    (known : ofName? text = some place) : place.name = text := by
  simpa using List.find?_some known

theorem DirectiveDefinition.map_name_locationKinds {definition : DirectiveDefinition L}
    (known : ∀ name ∈ definition.locations, name.text ∈ directiveLocations) :
    definition.locationKinds.map DirectiveLocation.name =
      definition.locations.map (·.text) := by
  rw [locationKinds, List.map_filterMap, List.filterMap_eq_map_iff_forall_eq_some]
  intro name member
  obtain ⟨place, found⟩ :=
    Option.isSome_iff_exists.mp (isSome_ofName?_iff.mpr (known name member))
  rw [found, Option.map_some, DirectiveLocation.name_of_ofName? found]

/-! ## From derivations -/

section

variable {noteOf : Nat → Nat → L} {depth : Nat} {constness : Constness} {node : Node L}
variable {place after : Place}

theorem Spells.provided_mem {parts : List (Part L)}
    (spells : Spells noteOf depth parts place after)
    (condition : Bool) (member : .provided condition ∈ parts) : condition = true := by
  induction spells with
  | nil => cases member
  | provided holds _ induction =>
      cases member with
      | head => exact holds
      | tail _ member => exact induction member
  | token _ _ _ induction | leftOut _ induction | putIn _ _ _ induction
  | notBefore _ _ induction
  | child _ _ _ _ _ induction =>
      cases member with
      | tail _ member => exact induction member

theorem Spells.word_mem {parts : List (Part L)}
    (spells : Spells noteOf depth parts place after)
    (text : String) (member : .word text ∈ parts) : .name text ∈ place.ahead := by
  induction spells with
  | nil => cases member
  | token covers fits _ induction =>
      rw [covers.1]
      cases member with
      | head =>
          cases fits
          exact List.mem_cons_self
      | tail _ member => exact List.mem_append_right _ (induction member)
  | putIn covers _ _ induction =>
      rw [covers.1]
      cases member with
      | tail _ member => exact List.mem_append_right _ (induction member)
  | leftOut _ induction | provided _ _ induction | notBefore _ _ induction =>
      cases member with
      | tail _ member => exact induction member
  | child _ inside _ _ _ induction =>
      obtain ⟨covered, covers⟩ := inside.covers
      rw [covers.1]
      cases member with
      | tail _ member => exact List.mem_append_right _ (induction member)

theorem Node.Derives.isSound (derives : node.Derives noteOf depth constness place after)
    (named : ∀ text, .name text ∈ place.ahead → IsName text) : node.IsSound := by
  obtain ⟨_, _, spells, _⟩ := derives
  have holds := spells.provided_mem
  have words := fun text member => named text (spells.word_mem text member)
  cases node with
  | document document =>
      have nonempty :=
        holds (!document.definitions.isEmpty) (by simp [Node.parts, Document.parts])
      simpa [Node.IsSound] using nonempty
  | definition definition =>
      cases definition with
      | fragment definition =>
          have other := holds (definition.name.text != "on")
            (by simp [Node.parts, Definition.parts, FragmentDefinition.parts])
          simpa [Node.IsSound] using other
      | schema definition =>
          have nonempty := holds (!definition.operationTypes.isEmpty)
            (by simp [Node.parts, Definition.parts, SchemaDefinition.parts])
          simpa [Node.IsSound] using nonempty
      | directive definition =>
          have nonempty := holds (!definition.locations.isEmpty)
            (by simp [Node.parts, Definition.parts, DirectiveDefinition.parts])
          have known := holds (definition.locations.all (·.text ∈ directiveLocations))
            (by simp [Node.parts, Definition.parts, DirectiveDefinition.parts])
          exact ⟨by
            simpa using nonempty,
              DirectiveDefinition.map_name_locationKinds (by simpa using known)⟩
      | _ => trivial
  | selectionSet selectionSet =>
      obtain ⟨selections, location⟩ := selectionSet
      have nonempty :=
        holds (!selections.isEmpty) (by simp [Node.parts, SelectionSet.parts])
      simpa [Node.IsSound] using nonempty
  | selection selection =>
      cases selection with
      | spread name =>
          have other := holds (name.text != "on") (by simp [Node.parts, Selection.parts])
          simpa [Node.IsSound] using other
      | _ => trivial
  | name name => exact words name.text (by simp [Node.parts])
  | type type =>
      cases type with
      | nonNull inner =>
          exact holds inner.isNullable (by simp [Node.parts, TypeReference.parts])
      | _ => trivial
  | value value =>
      cases value with
      | enum name =>
          have other :=
            holds (name ∉ ["true", "false", "null"]) (by simp [Node.parts, Value.parts])
          exact ⟨words name (by simp [Node.parts, Value.parts]), of_decide_eq_true other⟩
      | _ => trivial
  | _ => trivial

end

/-! ## All nodes of a tree -/

mutual

theorem Outline.exists_within_of_mem_rows {depth : Nat} {outline : Outline L}
    {row : OutlineRow L}
    (member : row ∈ outline.rows depth) :
    ∃ inner : Outline L, inner.Within outline ∧ inner.node = row.node := by
  cases outline with
  | mk role node children =>
      rcases List.mem_cons.mp member with rfl | member
      · exact ⟨_, .refl _, rfl⟩
      · obtain ⟨child, isChild, inner, within, equal⟩ :=
          Outline.exists_within_of_mem_rowsOfAll member
        exact ⟨inner, .deeper isChild within, equal⟩

theorem Outline.exists_within_of_mem_rowsOfAll {depth : Nat} {children : List (Outline L)}
    {row : OutlineRow L} (member : row ∈ Outline.rowsOfAll depth children) :
    ∃ child ∈ children, ∃ inner : Outline L, inner.Within child ∧
      inner.node = row.node := by
  cases children with
  | nil => cases member
  | cons child rest =>
      rcases List.mem_append.mp member with member | member
      · obtain ⟨inner, within, equal⟩ := Outline.exists_within_of_mem_rows member
        exact ⟨child, List.mem_cons_self, inner, within, equal⟩
      · obtain ⟨other, isChild, inner, within, equal⟩ :=
          Outline.exists_within_of_mem_rowsOfAll member
        exact ⟨other, List.mem_cons_of_mem child isChild, inner, within, equal⟩

end

/-- All nodes of a derived tree are sound, if the names among the tokens are names. -/
theorem Outline.Derived.isSound {noteOf : Nat → Nat → L} {depth : Nat}
    {outline inner : Outline L}
    {place after : Place} (derived : outline.Derived noteOf depth place after)
    (within : inner.Within outline)
    (named : ∀ text, .name text ∈ place.ahead → IsName text) : inner.node.IsSound := by
  obtain ⟨first, last, ⟨covered, covers⟩, _, role, constness, node, rfl, derives⟩ :=
    derived.within within
  rw [Outline.node_outline]
  refine derives.isSound fun text member => named text ?_
  rw [covers.1]
  exact List.mem_append_right _ member

/-! ## The definitions of a document -/

/-- Operations and fragments are definitions in their order. None is both, and all
others describe a schema. -/
structure Document.IsParted (document : Document L) : Prop where
  operations : (document.operations.map Definition.operation).Sublist document.definitions
  fragments : (document.fragments.map Definition.fragment).Sublist document.definitions
  disjoint : (document.operations.map Definition.operation).Disjoint
    (document.fragments.map Definition.fragment)
  length_eq : document.operations.length + document.fragments.length +
    (document.definitions.filter (!·.isExecutable)).length = document.definitions.length

theorem Document.isParted (document : Document L) : document.IsParted := by
  obtain ⟨definitions, location⟩ := document
  refine ⟨?_, ?_, ?_, ?_⟩
  · induction definitions with
    | nil => exact .slnil
    | cons definition definitions induction =>
        cases definition with
        | operation definition => exact induction.cons_cons _
        | _ definition => exact induction.cons _
  · induction definitions with
    | nil => exact .slnil
    | cons definition definitions induction =>
        cases definition with
        | fragment definition => exact induction.cons_cons _
        | _ definition => exact induction.cons _
  · intro definition isOperation isFragment
    obtain ⟨_, _, rfl⟩ := List.mem_map.mp isOperation
    obtain ⟨_, _, equal⟩ := List.mem_map.mp isFragment
    cases equal
  · induction definitions with
    | nil => rfl
    | cons definition definitions induction =>
        cases definition <;>
          simp [operations, fragments, Definition.isExecutable] at induction ⊢ <;> omega

/-! ## What is parsed -/

variable {source : Source} {options : ParseOptions} {document : Document Note}

/-- All nodes of a document that is parsed are sound, and it has nothing but operations,
fragments and definitions that describe a schema. -/
theorem isSound_of_parse (parsed : parse source options = .ok document) :
    (∀ row ∈ document.rows, row.node.IsSound) ∧ document.IsParted := by
  refine ⟨fun row member => ?_, document.isParted⟩
  obtain ⟨tokens, inner, consists⟩ := consists_of_parse parsed
  obtain ⟨tree, derives, rfl⟩ := (parse_eq_ok consists).mp parsed
  have derived :
      Outline.Derived (options.noteBetween (significant tokens)) options.maxNestingDepth
      (tree.map (options.note (significant tokens).toArray)).outline ⟨0, lexemes tokens⟩
      ⟨inner.length + 2, []⟩ := ⟨.document, .variable, _, rfl, derives.map _⟩
  obtain ⟨node, within, equal⟩ := Outline.exists_within_of_mem_rows member
  rw [← equal]
  exact derived.isSound within fun text member => consists.yields.isName member

theorem isSound_of_fragment_and_directive :
    ∃ document,
      parse { body := "fragment a on B\x7bc ...d\x7d directive@e on|FIELD|QUERY" }
        ⟨false, 3⟩ = .ok document ∧
      document.rows.length = 14 ∧
      (∀ row ∈ document.rows, row.node.IsSound) ∧ document.IsParted := by
  have count :
      (parse { body := "fragment a on B\x7bc ...d\x7d directive@e on|FIELD|QUERY" }
      ⟨false, 3⟩).toOption.map (·.rows.length) = some 14 := by decide +kernel
  cases parsed :
      parse { body := "fragment a on B\x7bc ...d\x7d directive@e on|FIELD|QUERY" }
        ⟨false, 3⟩ with
  | error diagnostic =>
      rw [parsed] at count
      cases count
  | ok document =>
      rw [parsed] at count
      exact ⟨document, rfl, Option.some.inj count, isSound_of_parse parsed⟩

end GraphQL
