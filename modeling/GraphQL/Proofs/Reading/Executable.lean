import GraphQL.Proofs.Reading.Value

/-! How operations and fragments are read. -/

namespace GraphQL

variable {extentOf : Nat → Nat → Extent} {depth : Nat}

open Rule

namespace Selection

variable {place after : Place} {directives : List (Directive Extent)} {location : Extent}

def isField : Selection Extent → Bool
  | .field .. => true
  | _ => false

theorem derives_spread_iff {name : Name Extent} :
    (Node.selection (spread name directives location)).Derives extentOf depth
      .variable place after ↔
      (∃ dots, place.Covers [.punctuator .spread] dots ∧ (name.text != "on") = true ∧
        ∃ middle, (Node.name name).Derives extentOf depth .variable dots middle ∧
          Spells extentOf depth (Part.directives .variable directives) middle after) ∧
      location = extentOf place.ordinal after.ordinal := by
  rw [Node.derives_iff rfl]
  simp only [Node.parts, parts, List.cons_append, List.nil_append, Spells.mark_iff,
    Spells.provided_iff, Spells.name_iff]
  rfl

theorem derives_inlineFragment_iff {condition : Option (NamedType Extent)}
    {selections : SelectionSet Extent} :
    (Node.selection (inlineFragment condition directives selections location)).Derives
      extentOf depth
        .variable place after ↔
      (∃ dots, place.Covers [.punctuator .spread] dots ∧
        ∃ middle, Spells extentOf depth (Part.typeCondition condition) dots middle ∧
          ∃ opening, Spells extentOf depth
            (Part.directives .variable directives) middle opening ∧
            (Node.selectionSet selections).Derives extentOf depth .variable
              opening after) ∧
      location = extentOf place.ordinal after.ordinal := by
  rw [Node.derives_iff rfl]
  simp only [Node.parts, parts, List.cons_append, List.nil_append, List.append_assoc,
    Spells.mark_iff, Spells.append_iff, Spells.selectionSet_iff, Spells.nil_iff,
      exists_eq_right']
  rfl

end Selection

theorem Part.spells_some_typeCondition_iff {type : NamedType Extent}
    {place after : Place} :
    Spells extentOf depth (typeCondition (some type)) place after ↔
      ∃ on, place.Covers [.name "on"] on ∧
        (Node.namedType type).Derives extentOf depth .variable on after := by
  simp only [typeCondition, Spells.word_iff, Spells.child_iff, Spells.nil_iff,
    exists_eq_right']

namespace Reads

/-! ## Selections -/

theorem aliasAndName : Reads extentOf depth Grammar.aliasAndName
    (Phrase.written extentOf fun names => Part.aliasName names.1 ++ [.name names.2])
    ⟨false, [.kind .name], [.mark .colon], [], [.name "a"]⟩ := by
  have named : Reads extentOf depth Grammar.name _ _ := name .variable
  have second := fun first : Name Extent =>
    takingMark .colon (named.map fun second => (some first, second)) (by decide)
      (.pure (none, first)) rfl
  refine (named.bind second (by decide)).congr ?_
  rintro depth place ⟨first, second⟩ after
  cases first <;> simp [Part.aliasName, Part.name]

theorem fragmentName : Reads extentOf depth Grammar.fragmentName
    (fun depth place name after => (name.text != "on") = true ∧
      Phrase.node extentOf .variable .name depth place name after)
    (.single [.nameBut "on"] (.name "a")) := by
  let fault : Lexeme → GrammarFault := fun found =>
    if found.isKeyword "on" then .reservedName "on" else .expected .name found
  refine (nameIf (· != "on") fault "a" (fun text allowed => ?_)
    (by decide) .variable).of_readAt_eq ?_
  · simpa [Sign.Shows, Lexeme.kind] using allowed
  · intro terms depth place _
    rw [Grammar.fragmentName, readAt_peek_current_bind]
    by_cases reserved : place.current.isKeyword "on" = true
    · rw [if_pos reserved]
      refine (readAt_located_eq_error.mpr ?_).symm
      have current : place.current = .name "on" := by
        simpa [Lexeme.isKeyword] using reserved
      rw [Rule.take, readAt_peek_current_bind, current]
      rfl
    · rw [if_neg reserved]
      refine readAt_located_congr ?_
      rw [Rule.take, readAt_peek_current_bind, readAt_peek_current_bind]
      cases current : place.current with
      | name text => 
        have allowed : (text != "on") = true := by
          simpa [Lexeme.isKeyword, current] using reserved
        simp [makeName, allowed]
      | _ => rfl

variable (below : ReadsNested extentOf depth)

include below

theorem selectionSet : Reads extentOf depth Grammar.selectionSet
    (Phrase.node extentOf .variable .selectionSet) Nonterminal.selectionSet.profile :=
  (nested below .selectionSet).congr fun depth place selections after => by
    rw [Phrase.node_iff, Node.derives_iff_of_nested rfl]
    rfl

theorem field : Reads extentOf depth Grammar.field
    (fun depth place selection after => selection.isField = true ∧
      Phrase.node extentOf .variable .selection depth place selection after)
    ⟨false, [.kind .name],
      [.mark .colon, .mark .leftParen, .mark .atSign, .mark .leftBrace], [],
      [.name "a"]⟩ := by
  have selections := choosingMark .leftBrace ((selectionSet below).map some) rfl
    (fun _ => id) (.pure none) rfl
  have afterName := fun (names : Option (Name Extent) × Name Extent) =>
    (arguments below .variable).bind (fun arguments =>
      (directives below .variable).bind
        (fun directives => selections.map fun selections extent =>
          Selection.field names.1 names.2 arguments directives selections extent) (by
            decide)) (by decide)
  have reads := located (aliasAndName.bind afterName (by decide))
  refine .congr (.relax (reads.of_readAt_eq fun _ => rfl) rfl (by decide) (by decide)
    (by decide) rfl) ?_
  intro depth place selection after
  constructor
  · rintro ⟨_, ⟨⟨aliasName, name⟩, _, named, arguments, _, spells, directives, _, spells',
      selections, _, opened, rfl, rfl⟩, rfl⟩
    refine ⟨rfl, (Node.derives_iff rfl).mpr ⟨?_, rfl⟩⟩
    simp only [Node.parts, Selection.parts, Phrase.written_iff, Spells.append_iff]
      at named ⊢
    exact ⟨_, ⟨_, ⟨_, named, spells⟩, spells'⟩, Spells.optional_iff.mpr opened⟩
  · rintro ⟨isField, derives⟩
    cases selection with
    | field aliasName name arguments directives selections location =>
        obtain ⟨parts, rfl⟩ := (Node.derives_iff rfl).mp derives
        simp only [Node.parts, Selection.parts, Spells.append_iff] at parts
        obtain ⟨_, ⟨_, ⟨_, named, spells⟩, spells'⟩, opened⟩ := parts
        exact ⟨_, ⟨(aliasName, name), _, Spells.append_iff.mpr named, _, _, spells, _, _,
          spells', _, _, Spells.optional_iff.mp opened, rfl, rfl⟩, rfl⟩
    | _ => cases isField

def inlineFragmentRest (condition : Option (NamedType Extent)) :
    Rule (Extent → Selection Extent) := do
      let directives ← Grammar.directives .variable
      let selections ← Grammar.selectionSet
      return fun extent => .inlineFragment condition directives selections extent

def fragmentSpreadRest : Rule (Extent → Selection Extent) := do
  let name ← Grammar.fragmentName
  let directives ← Grammar.directives .variable
  return fun extent => .spread name directives extent

theorem inlineFragment (condition : Option (NamedType Extent)) : Reads extentOf depth
    (inlineFragmentRest condition)
    ((Phrase.written extentOf (Part.directives .variable)).bind fun directives =>
      (Phrase.node extentOf .variable .selectionSet).bind fun selections =>
        .pure fun extent =>
          Selection.inlineFragment condition directives selections extent)
    ⟨false, [.mark .atSign, .mark .leftBrace], [], [],
      [.punctuator .leftBrace, .name "a", .punctuator .rightBrace]⟩ :=
  (directives below .variable).bind
    (fun directives => (selectionSet below).map fun selections extent =>
      Selection.inlineFragment condition directives selections extent) (by decide)

omit below in
/-- One test for the word `on`, and one for a name where it is missing, do
for `Grammar.spread`. -/
theorem readAt_spread {terms : Terms} {place : Place} :
    Grammar.spread.readAt terms depth place =
    (Rule.located do
      Rule.mark .spread
      if ← Rule.optionalKeyword "on" then
        let type ← Grammar.namedType
        inlineFragmentRest (some type)
      else if (← Rule.peek .current).kind == .name then
        fragmentSpreadRest
      else
        inlineFragmentRest none).readAt terms depth place := by
  refine readAt_located_congr ?_
  rw [readAt_bind, readAt_bind]
  rcases (Rule.mark .spread).readAt _ _ _ with _ | ⟨_, middle⟩
  · rfl
  · simp only
    rw [readAt_bind, readAt_bind]
    rcases (Rule.optionalKeyword "on").readAt _ _ middle with _ | ⟨_ | _, after⟩
    · rfl
    · change (peek .current >>= _).readAt _ _ after =
        (peek .current >>= _).readAt _ _ after
      rw [readAt_peek_current_bind, readAt_peek_current_bind]
      simp only [Bool.not_false, Bool.true_and]
      split <;> rfl
    · exact readAt_map_bind _ _ _

theorem spread : Reads extentOf depth Grammar.spread
    (fun depth place selection after => selection.isField = false ∧
      Phrase.node extentOf .variable .selection depth place selection after)
    ⟨false, [.mark .spread], [.mark .atSign, .mark .leftParen], [],
      [.punctuator .spread, .punctuator .leftBrace, .name "a",
        .punctuator .rightBrace]⟩ := by
  have conditional :=
    (namedType .variable).bind (fun type => inlineFragment below (some type)) (by decide)
  have fragment := fragmentName.bind (fun name => (directives below .variable).map
    fun directives extent => Selection.spread name directives extent) (by decide)
  have test : ∀ found : Lexeme, (found.kind == .name) = true ↔
      Shown [.kind .name] found := by simp
  have within : ∀ {found : Lexeme}, Shown [.nameBut "on"] found →
      Shown [.kind .name] found := by
    simp +contextual [Sign.Shows]
  have unconditional := choose test (fragment.reads.weaken fun _ _ => trivial)
    (fun holds => (fragment.starts holds).resolve_left fun empty =>
      Bool.false_ne_true empty.1) within
    (inlineFragment below none) rfl
  have reads := located <| (mark .spread).bind
    (fun _ => takingKeyword "on" conditional (by decide) unconditional (by decide))
      (by decide)
  refine .congr
    (.relax (reads.of_readAt_eq fun _ => readAt_spread) rfl (by decide) (by decide)
    (by decide) rfl) ?_
  intro depth place selection after
  constructor
  · rintro ⟨_,
      ⟨_, _, dots, ⟨_, _, on, type, _, derives, directives, _, spells, selections, _,
      opened, rfl, rfl⟩ | ⟨name, _, ⟨allowed, derives⟩, directives, _, spells, rfl, rfl⟩ |
      ⟨directives, _, spells, selections, _, opened, rfl, rfl⟩⟩, rfl⟩
    · refine ⟨rfl, Selection.derives_inlineFragment_iff.mpr
        ⟨⟨_, Phrase.mark_iff.mp dots, _, ?_, _, spells, opened⟩, rfl⟩⟩
      exact Part.spells_some_typeCondition_iff.mpr ⟨_, Phrase.word_iff.mp on, derives⟩
    · exact ⟨rfl, Selection.derives_spread_iff.mpr
        ⟨⟨_, Phrase.mark_iff.mp dots, allowed, _, derives, spells⟩, rfl⟩⟩
    · exact ⟨rfl, Selection.derives_inlineFragment_iff.mpr
        ⟨⟨_, Phrase.mark_iff.mp dots, _, .nil, _, spells, opened⟩, rfl⟩⟩
  · rintro ⟨isField, derives⟩
    cases selection with
    | field => cases isField
    | spread name directives location =>
        obtain ⟨⟨_, dots, allowed, _, named, spells⟩, rfl⟩ :=
          Selection.derives_spread_iff.mp derives
        exact ⟨_, ⟨(), _, Phrase.mark_iff.mpr dots,
          .inr (.inl ⟨name, _, ⟨allowed, named⟩, _, _, spells, rfl, rfl⟩)⟩, rfl⟩
    | inlineFragment condition directives selections location =>
        obtain ⟨⟨_, dots, _, typed, _, spells, opened⟩, rfl⟩ :=
          Selection.derives_inlineFragment_iff.mp derives
        refine ⟨_, ⟨(), _, Phrase.mark_iff.mpr dots, ?_⟩, rfl⟩
        cases condition with
        | none =>
            cases typed
            exact .inr (.inr ⟨_, _, spells, _, _, opened, rfl, rfl⟩)
        | some type =>
            obtain ⟨_, on, derives⟩ := Part.spells_some_typeCondition_iff.mp typed
            exact .inl ⟨(), _, Phrase.word_iff.mpr on, type, _, derives, _, _,
              spells, _, _, opened, rfl, rfl⟩

theorem selection : Reads extentOf depth Grammar.selection
    (Phrase.node extentOf .variable .selection)
    ⟨false, [.mark .spread, .kind .name],
      [.mark .colon, .mark .leftParen, .mark .atSign, .mark .leftBrace], [],
        [.name "a"]⟩ := by
  have reads := choosingMark .spread (spread below) rfl (fun _ => id) (field below) rfl
  refine .congr (.relax reads rfl (by decide) (by decide) (by decide) rfl) ?_
  intro depth place selection after
  rw [Phrase.either_iff, ← or_and_right]
  cases selection.isField <;> simp

theorem selections : Reads extentOf depth Grammar.selections
    (Nonterminal.phrase extentOf .selectionSet) Nonterminal.selectionSet.profile := by
  have items := many .leftBrace .rightBrace (selection below) .selection (by decide)
  refine (located (items.map fun selections extent =>
    SelectionSet.mk selections extent)).congr ?_
  rintro depth place ⟨selections, location⟩ after
  constructor
  · rintro ⟨_, ⟨selections, _, holds, rfl, rfl⟩, equal⟩
    cases equal
    exact ⟨Spells.many_iff.mpr holds, rfl⟩
  · rintro ⟨spells, located⟩
    cases located
    exact ⟨_, ⟨selections, _, Spells.many_iff.mp spells, rfl, rfl⟩, rfl⟩

/-! ## Definitions -/

def makeOperation : Lexeme → Option OperationKind
  | .name word => OperationKind.ofKeyword? word
  | _ => none

def operationFault : Lexeme → GrammarFault
  | .name word =>
      if word = "subscription" then .unsupported .subscription
        else .unexpected (.name word)
  | found => .expected .name found

omit below in
theorem operationType : Reads extentOf depth Grammar.operationType
    (fun _ place operation after => place.Covers [.name operation.keyword] after)
    (.single [.word "query", .word "mutation"] (.name "query")) := by
  have made_iff : ∀ found operation, makeOperation found = some operation ↔
      found = .name operation.keyword := by
    intro found operation
    cases found with
    | name word =>
        simp only [makeOperation, OperationKind.ofKeyword?, Lexeme.name.injEq]
        constructor
        · intro found
          have same := List.find?_some found
          exact (eq_of_beq same).symm
        · rintro rfl
          cases operation <;> rfl
    | _ => simp [makeOperation]
  have shows : ∀ found operation, makeOperation found = some operation →
      Shown [.word "query", .word "mutation"] found := by
    intro found operation made
    rw [(made_iff _ _).mp made]
    cases operation <;> simp [OperationKind.keyword]
  have taken : Reads extentOf depth (Rule.take makeOperation operationFault) _
      (.single _ (.name "query")) :=
    take .query rfl shows rfl
  refine (taken.of_readAt_eq ?_).congr ?_
  · intro terms depth place closed
    rw [Rule.take, Grammar.operationType, readAt_peek_current_bind,
      readAt_peek_current_bind]
    cases current : place.current with
    | name word =>
        have more : place.current ≠ .endOfFile := by simp [current]
        simp only [makeOperation, operationFault]
        cases OperationKind.ofKeyword? word with
        | some operation => rfl
        | none =>
            simp only
            split <;> exact readAt_advance_refuse closed more _
    | _ => rfl
  · intro depth place operation after
    simp [Phrase.token, made_iff]

theorem variableDefinition : Reads extentOf depth Grammar.variableDefinition
    (Phrase.node extentOf .variable .variableDefinition)
    ⟨false, [.mark .dollar],
      [.mark .atSign, .mark .leftParen, .mark .equals, .mark .bang], [],
      [.punctuator .dollar, .name "a", .punctuator .colon, .name "a"]⟩ := by
  have typed := fun declared => (typeReference below).bind (fun type =>
    (defaultValue below).bind
      (fun value => (directives below .constant).map fun directives extent =>
        VariableDefinition.mk declared type value directives extent) (by
          decide)) (by decide)
  have reads := located <| (variableReference .variable).bind (fun declared =>
    (mark .colon).bind (fun _ => typed declared) (by decide)) (by decide)
  refine .congr (.relax reads rfl (by decide) (by decide) (by decide) rfl) ?_
  rintro depth place ⟨declared, type, value, directives, location⟩ after
  rw [Phrase.node_iff, Node.derives_iff rfl]
  simp [Node.parts, Node.location, VariableDefinition.parts]

omit below in
theorem keyword_iff {mayOmit : Bool} {text : String} {place after : Place} :
    Spells extentOf depth [if mayOmit then .perhaps (.word text)
      else .token (.word text)] place after ↔
      mayOmit = true ∧ after = place ∨ place.Covers [.name text] after := by
  cases mayOmit <;> simp [Spelling.word, Spelling.Fits]

omit below in
theorem derives_operation_iff {operation : OperationDefinition Extent}
    {constness : Constness} {place after : Place} :
    (Node.definition (.operation operation)).Derives extentOf depth
      constness place after ↔
      (operation.isShorthand = true ∧
          (Node.selectionSet operation.selectionSet).Derives extentOf depth
            .variable place after ∨
        ∃ keyword, place.Covers [.name operation.operation.keyword] keyword ∧
          ∃ named, Spells extentOf depth
            (operation.name.map Part.name).toList keyword named ∧
            ∃ declared, Spells extentOf depth
              (Part.inParens (operation.variableDefinitions.map
                (Part.child .variableDefinition .variable <| .variableDefinition ·)))
                  named declared ∧
              ∃ opening, Spells extentOf depth
                (Part.directives .variable operation.directives)
                  declared opening ∧
                (Node.selectionSet operation.selectionSet).Derives extentOf depth
                  .variable opening
                  after) ∧
      operation.location = extentOf place.ordinal after.ordinal := by
  rw [Node.derives_iff rfl]
  refine and_congr ?_ Iff.rfl
  rw [Node.parts, Definition.parts, OperationDefinition.parts]
  simp only [List.append_assoc, Spells.append_iff, keyword_iff, Spells.selectionSet_iff,
    Spells.nil_iff, exists_eq_right', or_and_right, exists_or]
  refine or_congr ?_ Iff.rfl
  by_cases isShorthand : operation.isShorthand = true
  · have absent := isShorthand
    simp only [OperationDefinition.isShorthand, Bool.and_eq_true,
      Option.isNone_iff_eq_none, List.isEmpty_iff] at absent
    simp [isShorthand, absent, Part.inParens, Part.directives]
  · simp [isShorthand]

theorem operationDefinition : Reads extentOf depth Grammar.operationDefinition
    (Phrase.node extentOf .variable fun definition => .definition (.operation definition))
    ⟨false, [.mark .leftBrace, .word "query", .word "mutation"], [], [],
      [.name "query", .punctuator .leftBrace, .name "a", .punctuator .rightBrace]⟩ := by
  have test : ∀ found : Lexeme, (found.kind == .name) = true ↔
      Shown [.kind .name] found := by simp
  have anyName : Reads extentOf depth Grammar.name _ _ := name .variable
  have aName := anyName.map some
  have optionalName : Reads extentOf depth
      (do
        if (← peek .current).kind == .name then return some (← Grammar.name)
          else return none)
      _ _ :=
    choose test (aName.reads.weaken fun _ _ => trivial)
      (fun holds => (aName.starts holds).resolve_left nofun) id (.pure none) rfl
  have declared := optionalMany .leftParen .rightParen (variableDefinition below)
    (.variableDefinition _) (by decide)
  have tail := fun operation name declared => (directives below .variable).bind
    (fun directives => (selectionSet below).map fun selections extent =>
      OperationDefinition.mk operation name declared directives selections extent) (by
        decide)
  have full := operationType.bind (fun operation => optionalName.bind (fun name =>
    declared.bind (fun declared => tail operation name declared) (by decide)) (by
      decide)) (by decide)
  have short := (selectionSet below).map fun selections extent =>
    OperationDefinition.mk .query none [] [] selections extent
  have reads := located (choosingMark .leftBrace short rfl (fun _ => id) full (by decide))
  refine .congr
    (.relax (reads.of_readAt_eq fun {terms depth place} _ => ?_) rfl (by decide)
    (by decide) (by decide) rfl) ?_
  · refine readAt_located_congr ?_
    change (if (place.current == .punctuator .leftBrace) = true then _
      else _ : Rule _).readAt _ _ _ =
      (if (place.current == .punctuator .leftBrace) = true then _
        else _ : Rule _).readAt _ _ _
    split <;> rfl
  · intro depth place definition after
    constructor
    · rintro ⟨_, ⟨selections, _, opened, rfl, rfl⟩ | ⟨operation, _, keyword, name, _,
        named, declared,
        _, inside, directives, _, spells, selections, _, opened, rfl, rfl⟩, rfl⟩
      · exact derives_operation_iff.mpr ⟨.inl ⟨rfl, opened⟩, rfl⟩
      · exact derives_operation_iff.mpr
          ⟨.inr ⟨_, keyword, _, Spells.optional_iff.mpr named, _,
          Spells.inParens_iff.mpr inside, _, spells, opened⟩, rfl⟩
    · intro derives
      obtain ⟨operation, name, declared, directives, selections, location⟩ := definition
      obtain ⟨⟨isShorthand, opened⟩ | ⟨_, keyword, _, named, _, inside, _, spells,
          opened⟩, rfl⟩ :=
        derives_operation_iff.mp derives
      · simp only [OperationDefinition.isShorthand, Bool.and_eq_true, beq_iff_eq,
          Option.isNone_iff_eq_none, List.isEmpty_iff] at isShorthand
        obtain ⟨⟨⟨rfl, rfl⟩, rfl⟩, rfl⟩ := isShorthand
        exact ⟨_, .inl ⟨selections, _, opened, rfl, rfl⟩, rfl⟩
      · exact ⟨_, .inr ⟨operation, _, keyword, name, _,
          Spells.optional_iff.mp named, declared, _,
          Spells.inParens_iff.mp inside, directives, _, spells, selections, _, opened,
            rfl, rfl⟩, rfl⟩

theorem fragmentDefinition : Reads extentOf depth Grammar.fragmentDefinition
    (Phrase.node extentOf .variable fun definition => .definition (.fragment definition))
    ⟨false, [.word "fragment"], [], [],
      [.name "fragment", .name "a", .name "on", .name "a",
      .punctuator .leftBrace, .name "a", .punctuator .rightBrace]⟩ := by
  have tail := fun name condition => (directives below .variable).bind
    (fun directives => (selectionSet below).map fun selections extent =>
      FragmentDefinition.mk name condition directives selections extent) (by decide)
  have named := fragmentName.bind (fun name => (keyword "on").bind (fun _ =>
    (namedType .variable).bind (fun condition => tail name condition) (by decide)) (by
      decide))
    (by decide)
  refine (located ((keyword "fragment").bind (fun _ => named) (by decide))).congr ?_
  intro depth place definition after
  constructor
  · rintro ⟨_,
      ⟨_, _, keyword, name, _, ⟨allowed, derives⟩, _, _, on, condition, _, derives',
      directives, _, spells, selections, _, opened, rfl, rfl⟩, rfl⟩
    refine (Node.derives_iff rfl).mpr ⟨?_, rfl⟩
    simp only [Phrase.word_iff] at keyword on
    simp only [Node.parts, Definition.parts, FragmentDefinition.parts, Spells.append_iff,
      Spells.word_iff, Spells.provided_iff, Spells.name_iff, Spells.child_iff,
      Spells.selectionSet_iff, Spells.nil_iff]
    exact ⟨_, ⟨_, ⟨_, keyword, allowed, _, derives, _, on, _, derives', rfl⟩, spells⟩,
      _, opened, rfl⟩
  · intro derives
    obtain ⟨name, condition, directives, selections, location⟩ := definition
    obtain ⟨parts, rfl⟩ := (Node.derives_iff rfl).mp derives
    simp only [Node.parts, Definition.parts, FragmentDefinition.parts, Spells.append_iff,
      Spells.word_iff, Spells.provided_iff, Spells.name_iff, Spells.child_iff,
      Spells.selectionSet_iff, Spells.nil_iff] at parts
    obtain ⟨_, ⟨_, ⟨_, keyword, allowed, _, derives, _, on, _, derives', rfl⟩, spells⟩, _,
        opened, rfl⟩ := parts
    exact ⟨_, ⟨(), _, Phrase.word_iff.mpr keyword, name, _, ⟨allowed, derives⟩, (), _,
      Phrase.word_iff.mpr on, condition, _, derives', directives, _, spells, selections,
        _, opened, rfl, rfl⟩, rfl⟩

end Reads

end GraphQL
