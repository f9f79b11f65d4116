import GraphQL.Proofs.Reading.Executable

/-! How schemas, types and directive declarations are read. -/

namespace GraphQL

variable {α : Type} {extentOf : Nat → Nat → Extent} {depth : Nat}

open Rule

def Sign.strings : List Sign := [.kind .string, .kind .blockString]

def Profile.description : Profile := ⟨true, Sign.strings, Sign.strings, [], []⟩

namespace Reads

theorem description : Reads extentOf depth Grammar.description
    (Phrase.written extentOf Part.description) .description := by
  have test : ∀ found, Grammar.isString found = true ↔ Shown Sign.strings found := by
    simp [Grammar.isString, Sign.strings]
  have literal : Reads extentOf depth Grammar.stringValue _ _ := stringValue .constant
  have string := literal.map some
  have reads := choose test (string.reads.weaken fun _ _ => trivial)
    (fun holds => (string.starts holds).resolve_left nofun) id (.pure none) rfl
  exact (reads.of_readAt_eq fun _ => rfl).congr fun _ _ _ _ => Spells.optional_iff.symm

theorem readAt_description {terms : Terms} {place : Place}
    (closed : place.Closed terms.bound)
    (isString : Grammar.isString place.current = true) :
    ∃ given middle, Grammar.description.readAt terms depth place = .ok (given, middle) ∧
      middle.ordinal = place.ordinal + 1 := by
  have more : place.current ≠ .endOfFile := by
    intro atEnd
    rw [atEnd] at isString
    cases isString
  obtain ⟨after, taken, covers, _⟩ :
      ∃ after, advance.readAt terms depth place = .ok ((), after) ∧
      place.Covers [place.current] after ∧ after.Closed terms.bound :=
    readAt_advance_of_closed closed more
  have read : ∃ literal, Grammar.stringValue.readAt terms depth place =
      .ok (literal, after) := by
    cases current : place.current with
    | string text =>
        refine ⟨_, readAt_located_eq_ok.mpr
          ⟨fun extent => ⟨text, false, extent⟩, ?_, rfl⟩⟩
        rw [readAt_peek_current_bind, current, readAt_bind_of_ok taken]
        rfl
    | blockString text =>
        refine ⟨_, readAt_located_eq_ok.mpr ⟨fun extent => ⟨text, true, extent⟩, ?_, rfl⟩⟩
        rw [readAt_peek_current_bind, current, readAt_bind_of_ok taken]
        rfl
    | _ => rw [current] at isString; cases isString
  obtain ⟨literal, read⟩ := read
  refine ⟨some literal, after, ?_, covers.2⟩
  rw [Grammar.description, readAt_peek_current_bind, isString]
  exact readAt_bind_eq_ok.mpr ⟨literal, after, read, rfl⟩

end Reads

/-! ## Definitions that may be described -/

/-- Reading a phrase that may begin with a description, with which no fault lies -/
structure ReadsDescribed (extentOf : Nat → Nat → Extent) (depth : Nat) (rule : Rule α)
    (phrase : Phrase α) (profile : Profile) : Prop
    extends Reads extentOf depth rule phrase profile where
  past : ∀ {place limit bound fault blamed}, place.Closed bound →
    Grammar.isString place.current = true →
      rule.readAt (.whole extentOf limit bound) depth place =
        .error (some (.grammatical fault blamed)) → place.ordinal < blamed

namespace ReadsDescribed

variable {rule : Rule α} {phrase phrase' : Phrase α} {profile profile' : Profile}

theorem relax (reads : ReadsDescribed extentOf depth rule phrase profile)
    (nullable : profile.nullable = profile'.nullable)
    (first : ∀ sign ∈ profile.first, sign ∈ profile'.first)
    (tails : ∀ sign ∈ profile.tails, sign ∈ profile'.tails)
    (barred : ∀ sign ∈ profile.barred, sign ∈ profile'.barred)
    (sample : profile.sample = profile'.sample) :
    ReadsDescribed extentOf depth rule phrase profile' where
  toReads := reads.toReads.relax nullable first tails barred sample
  past := reads.past

theorem congr (reads : ReadsDescribed extentOf depth rule phrase profile)
    (same : ∀ depth place value after,
      phrase depth place value after ↔ phrase' depth place value after) :
    ReadsDescribed extentOf depth rule phrase' profile where
  toReads := reads.toReads.congr same
  past := reads.past

end ReadsDescribed

namespace Reads

theorem described {rest : Option (StringValue Extent) → Rule (Extent → α)}
    {next : Option (StringValue Extent) → Phrase (Extent → α)} {profile : Profile}
    (named : ∀ description,
      Reads extentOf depth (rest description) (next description) profile)
    (precedes : Profile.description.Precedes profile) :
    ReadsDescribed extentOf depth (.located (Grammar.description >>= rest))
      (((Phrase.written extentOf Part.description).bind next).located extentOf)
      (Profile.description.append profile) where
  toReads := .located (.bind .description named precedes)
  past {place limit bound fault blamed} closed isString outcome := by
    obtain ⟨given, middle, read, ordinal⟩ : ∃ given middle,
        Grammar.description.readAt (.whole extentOf limit bound) depth place =
          .ok (given, middle) ∧
          middle.ordinal = place.ordinal + 1 := readAt_description closed isString
    rw [readAt_located_eq_error, readAt_bind_of_ok read] at outcome
    obtain ⟨_, _, equal, le, _⟩ :=
      (named given).reads.fails (readAt_closed read closed) trivial outcome
    cases equal
    exact Nat.lt_of_lt_of_le (by rw [ordinal]; exact Nat.lt_succ_self _) le

theorem operationTypeDefinition : Reads extentOf depth Grammar.operationTypeDefinition
    (Phrase.node extentOf .constant .operationTypeDefinition)
    ⟨false, [.word "query", .word "mutation"], [], [],
      [.name "query", .punctuator .colon, .name "a"]⟩ := by
  refine (located (operationType.bind (fun operation => (mark .colon).bind
    (fun _ => (namedType .constant).map (OperationTypeDefinition.mk operation))
      (by decide))
    (by decide))).congr ?_
  rintro depth place ⟨operation, type, location⟩ after
  rw [Phrase.node_iff, Node.derives_iff rfl]
  simp [Node.parts, Node.location, OperationTypeDefinition.parts]

variable (below : ReadsNested extentOf depth)

include below

theorem schemaDefinition : ReadsDescribed extentOf depth Grammar.schemaDefinition
    (Phrase.node extentOf .variable fun definition => .definition (.schema definition))
    ⟨false, Sign.strings ++ [.word "schema"], [], [],
      [.name "schema", .punctuator .leftBrace,
      .name "query", .punctuator .colon, .name "a", .punctuator .rightBrace]⟩ := by
  have type : Reads extentOf depth Grammar.operationTypeDefinition _ _ :=
    operationTypeDefinition
  have types := many .leftBrace .rightBrace type .operationTypeDefinition (by decide)
  have named := fun description => (keyword "schema").bind (fun _ =>
    (directives below .constant).bind (fun directives => types.map
      (SchemaDefinition.mk description directives)) (by decide)) (by decide)
  have reads := described named (by decide)
  refine .congr (.relax reads rfl (by decide) (by decide) (by decide) rfl) ?_
  intro depth place definition after
  constructor
  · rintro ⟨_,
      ⟨description, _, described, _, _, keyword, directives, _, spells, types, _, inside,
      rfl, rfl⟩, rfl⟩
    refine (Node.derives_iff rfl).mpr
      ⟨Spells.append_iff.mpr ⟨_, ?_, Spells.many_iff.mpr inside⟩, rfl⟩
    rw [Phrase.word_iff] at keyword
    simp only [Spells.append_iff, Spells.word_iff, Spells.nil_iff]
    exact ⟨_, ⟨_, described, _, keyword, rfl⟩, spells⟩
  · intro derives
    obtain ⟨description, directives, types, location⟩ := definition
    obtain ⟨parts, rfl⟩ := (Node.derives_iff rfl).mp derives
    obtain ⟨_, parts, inside⟩ := Spells.append_iff.mp parts
    simp only [Spells.append_iff, Spells.word_iff, Spells.nil_iff] at parts
    obtain ⟨_, ⟨_, described, _, keyword, rfl⟩, spells⟩ := parts
    exact ⟨_, ⟨description, _, described, (), _, Phrase.word_iff.mpr keyword,
      directives, _, spells, types, _, Spells.many_iff.mp inside, rfl, rfl⟩, rfl⟩

/-! ## Fields and arguments -/

theorem inputValueDefinition : Reads extentOf depth Grammar.inputValueDefinition
    (Phrase.node extentOf .constant .inputValueDefinition)
    ⟨false, .kind .name :: Sign.strings,
      [.mark .atSign, .mark .leftParen, .mark .equals, .mark .bang], [],
      [.name "a", .punctuator .colon, .name "a"]⟩ := by
  have typed := fun description name => (typeReference below).bind (fun type =>
    (defaultValue below).bind
      (fun value => (directives below .constant).map fun directives extent =>
        InputValueDefinition.mk description name type value directives extent) (by
          decide)) (by decide)
  have named := fun description => (name .variable).bind (fun name =>
    (mark .colon).bind (fun _ => typed description name) (by decide)) (by decide)
  have reads := located (description.bind named (by decide))
  refine .congr (.relax reads rfl (by decide) (by decide) (by decide) rfl) ?_
  rintro depth place ⟨description, name, type, value, directives, location⟩ after
  rw [Phrase.node_iff, Node.derives_iff rfl]
  simp [Node.parts, Node.location, InputValueDefinition.parts, Part.name]

theorem argumentDefinitions : Reads extentOf depth Grammar.argumentDefinitions
    (Phrase.written extentOf Part.argumentDefinitions)
    ⟨true, [.mark .leftParen], [.mark .leftParen], [], []⟩ :=
  (optionalMany .leftParen .rightParen (inputValueDefinition below)
    (.inputValueDefinition _)
    (by decide)).congr fun _ _ _ _ => Spells.inParens_iff.symm

theorem fieldDefinition : Reads extentOf depth Grammar.fieldDefinition
    (Phrase.node extentOf .constant .fieldDefinition)
    ⟨false, .kind .name :: Sign.strings,
      [.mark .atSign, .mark .leftParen, .mark .bang], [],
      [.name "a", .punctuator .colon, .name "a"]⟩ := by
  have typed := fun description name arguments => (typeReference below).bind (fun type =>
    (directives below .constant).map fun directives extent =>
      FieldDefinition.mk description name arguments type directives extent) (by decide)
  have named := fun description => (name .variable).bind (fun name =>
    (argumentDefinitions below).bind (fun arguments =>
      (mark .colon).bind (fun _ => typed description name arguments) (by decide)) (by
        decide))
    (by decide)
  have reads := located (description.bind named (by decide))
  refine .congr (.relax reads rfl (by decide) (by decide) (by decide) rfl) ?_
  rintro depth place ⟨description, name, arguments, type, directives, location⟩ after
  rw [Phrase.node_iff, Node.derives_iff rfl]
  simp [Node.parts, Node.location, FieldDefinition.parts, Part.name]

/-! ## Types -/

theorem scalarTypeDefinition : ReadsDescribed extentOf depth Grammar.scalarTypeDefinition
    (Phrase.node extentOf .variable fun definition => .definition (.scalar definition))
    ⟨false, Sign.strings ++ [.word "scalar"], [.mark .atSign, .mark .leftParen], [],
      [.name "scalar", .name "a"]⟩ := by
  have named := fun description => (keyword "scalar").bind (fun _ =>
    (name .variable).bind
      (fun name => (directives below .constant).map fun directives extent =>
        ScalarTypeDefinition.mk description name directives extent) (by
          decide)) (by decide)
  have reads := described named (by decide)
  refine .congr (.relax reads rfl (by decide) (by decide) (by decide) rfl) ?_
  rintro depth place ⟨description, name, directives, location⟩ after
  rw [Phrase.node_iff, Node.derives_iff rfl]
  simp [Node.parts, Node.location, Definition.parts, Definition.location,
    ScalarTypeDefinition.parts, Part.name]

omit below in
theorem interfaces : Reads extentOf depth Grammar.interfaces
    (Phrase.written extentOf Part.interfaces)
    ⟨true, [.word "implements"], [.mark .ampersand, .word "implements"], [], []⟩ := by
  have type : Reads extentOf depth Grammar.namedType _ _ := namedType .constant
  have types : Reads extentOf depth (Rule.separated .ampersand Grammar.namedType) _ _ :=
    separated type .namedType (by decide) (by decide)
  refine ((takingKeyword "implements" types (by decide) (.pure []) rfl).relax rfl
    (by decide)
    (by decide) (by decide) rfl).congr ?_
  intro depth place types after
  cases types with
  | nil =>
      simp only [Phrase.written_iff, Part.interfaces, Spells.nil_iff, Phrase.either_iff]
      refine ⟨?_, fun same => .inr ⟨rfl, same⟩⟩
      rintro (⟨_, _, _, holds⟩ | ⟨_, rfl⟩)
      · exact (Spells.separated_ne_nil holds rfl).elim
      · rfl
  | cons type types =>
      simp only [Phrase.written_iff, Part.interfaces, Spells.word_iff,
        Spells.separated_iff (List.cons_ne_nil type types)]
      simp

theorem fieldedTypeDefinition (word : String) (plain : (Lexeme.name word).isPlain = true)
    (build : FieldedTypeDefinition Extent → Definition Extent)
    (node : ∀ definition, (build definition).parts = definition.parts word ∧
      (build definition).location = definition.location) :
    ReadsDescribed extentOf depth (Grammar.fieldedTypeDefinition word)
      (Phrase.node extentOf .variable fun definition => .definition (build definition))
      ⟨false, Sign.strings ++ [.word word],
        [.mark .atSign, .mark .leftParen, .mark .ampersand, .word "implements"],
          [.mark .leftBrace],
        [.name word, .name "a"]⟩ := by
  have fields := optionalMany_barring .leftBrace .rightBrace (fieldDefinition below)
    (.fieldDefinition _) (by decide)
  have tail := fun description name interfaces => (directives below .constant).bind
    (fun directives => fields.map fun fields extent =>
      FieldedTypeDefinition.mk description name interfaces directives fields extent) (by
        decide)
  have named := fun description => (keyword word).bind (fun _ => (name .variable).bind
    (fun name =>
      interfaces.bind (fun interfaces => tail description name interfaces) (by decide))
      (by decide)) ⟨rfl, by
        simp [Profile.append, Profile.single], by simp [Profile.single], by decide⟩
  have reads := described named ⟨rfl, by simp [Profile.append, Profile.single],
    by
      simp [Profile.description], by
        simpa [Profile.append, Profile.single] using ⟨plain, by decide⟩⟩
  refine .congr (.relax reads rfl (by
    simp [Profile.append, Profile.single, Profile.description])
    (by simp [Profile.append, Profile.single]) (by simp [Profile.append, Profile.single])
    (by simp [Profile.append, Profile.single, Profile.description])) ?_
  rintro depth place ⟨description, name, interfaces, directives, fields, location⟩ after
  rw [Phrase.node_iff, Node.derives_iff rfl, Node.parts, (node _).1,
    Node.location, (node _).2]
  simp [FieldedTypeDefinition.parts, Part.name, Spells.inBraces_iff]

omit below in
theorem unionMembers : Reads extentOf depth Grammar.unionMembers
    (Phrase.written extentOf Part.unionMembers)
    ⟨true, [.mark .equals], [.mark .pipe, .mark .equals], [], []⟩ := by
  have type : Reads extentOf depth Grammar.namedType _ _ := namedType .constant
  have types : Reads extentOf depth (Rule.separated .pipe Grammar.namedType) _ _ :=
    separated type .namedType (by decide) (by decide)
  refine ((takingMark .equals types (by decide) (.pure []) rfl).relax rfl
    (by decide) (by decide)
    (by decide) rfl).congr ?_
  intro depth place types after
  cases types with
  | nil =>
      simp only [Phrase.written_iff, Part.unionMembers, Spells.nil_iff, Phrase.either_iff]
      refine ⟨?_, fun same => .inr ⟨rfl, same⟩⟩
      rintro (⟨_, _, _, holds⟩ | ⟨_, rfl⟩)
      · exact (Spells.separated_ne_nil holds rfl).elim
      · rfl
  | cons type types =>
      simp only [Phrase.written_iff, Part.unionMembers, Spells.mark_iff,
        Spells.separated_iff (List.cons_ne_nil type types)]
      simp

theorem unionTypeDefinition : ReadsDescribed extentOf depth Grammar.unionTypeDefinition
    (Phrase.node extentOf .variable fun definition => .definition (.union definition))
    ⟨false, Sign.strings ++ [.word "union"],
      [.mark .atSign, .mark .leftParen, .mark .pipe, .mark .equals], [],
      [.name "union", .name "a"]⟩ := by
  have tail := fun description name => (directives below .constant).bind
    (fun directives => unionMembers.map fun members extent =>
      UnionTypeDefinition.mk description name directives members extent) (by decide)
  have named := fun description => (keyword "union").bind (fun _ =>
    (name .variable).bind (fun name => tail description name) (by decide)) (by decide)
  have reads := described named (by decide)
  refine .congr (.relax reads rfl (by decide) (by decide) (by decide) rfl) ?_
  rintro depth place ⟨description, name, directives, members, location⟩ after
  rw [Phrase.node_iff, Node.derives_iff rfl]
  simp [Node.parts, Node.location, Definition.parts, Definition.location,
    UnionTypeDefinition.parts, Part.name]

theorem enumValueDefinition : Reads extentOf depth Grammar.enumValueDefinition
    (Phrase.node extentOf .constant .enumValueDefinition)
    ⟨false, Sign.strings ++ [.kind .name], [.mark .atSign, .mark .leftParen], [],
      [.name "a"]⟩ := by
  have named := fun description => (name .variable).bind (fun name =>
    (directives below .constant).map fun directives extent =>
      EnumValueDefinition.mk description name directives extent) (by decide)
  have reads := located (description.bind named (by decide))
  refine .congr (.relax reads rfl (by decide) (by decide) (by decide) rfl) ?_
  rintro depth place ⟨description, name, directives, location⟩ after
  rw [Phrase.node_iff, Node.derives_iff rfl]
  simp [Node.parts, Node.location, EnumValueDefinition.parts, Part.name]

theorem enumTypeDefinition : ReadsDescribed extentOf depth Grammar.enumTypeDefinition
    (Phrase.node extentOf .variable fun definition => .definition (.enum definition))
    ⟨false, Sign.strings ++ [.word "enum"], [.mark .atSign, .mark .leftParen],
      [.mark .leftBrace], [.name "enum", .name "a"]⟩ := by
  have values := optionalMany_barring .leftBrace .rightBrace (enumValueDefinition below)
    (.enumValueDefinition _) (by decide)
  have tail := fun description name => (directives below .constant).bind
    (fun directives => values.map fun values extent =>
      EnumTypeDefinition.mk description name directives values extent) (by decide)
  have named := fun description => (keyword "enum").bind (fun _ =>
    (name .variable).bind (fun name => tail description name) (by decide)) (by decide)
  have reads := described named (by decide)
  refine .congr (.relax reads rfl (by decide) (by decide) (by decide) rfl) ?_
  rintro depth place ⟨description, name, directives, values, location⟩ after
  rw [Phrase.node_iff, Node.derives_iff rfl]
  simp [Node.parts, Node.location, Definition.parts, Definition.location,
    EnumTypeDefinition.parts, Part.name, Spells.inBraces_iff]

theorem inputObjectTypeDefinition :
    ReadsDescribed extentOf depth Grammar.inputObjectTypeDefinition
    (Phrase.node extentOf .variable fun definition =>
      .definition (.inputObject definition))
    ⟨false, Sign.strings ++ [.word "input"], [.mark .atSign, .mark .leftParen],
      [.mark .leftBrace], [.name "input", .name "a"]⟩ := by
  have fields := optionalMany_barring .leftBrace .rightBrace (inputValueDefinition below)
    (.inputValueDefinition _) (by decide)
  have tail := fun description name => (directives below .constant).bind
    (fun directives => fields.map fun fields extent =>
      InputObjectTypeDefinition.mk description name directives fields extent) (by decide)
  have named := fun description => (keyword "input").bind (fun _ =>
    (name .variable).bind (fun name => tail description name) (by decide)) (by decide)
  have reads := described named (by decide)
  refine .congr (.relax reads rfl (by decide) (by decide) (by decide) rfl) ?_
  rintro depth place ⟨description, name, directives, fields, location⟩ after
  rw [Phrase.node_iff, Node.derives_iff rfl]
  simp [Node.parts, Node.location, Definition.parts, Definition.location,
    InputObjectTypeDefinition.parts, Part.name, Spells.inBraces_iff]

/-! ## Directives -/

def locationFault : Lexeme → GrammarFault
  | .name text => .unknownDirectiveLocation text
  | found => .expected .name found

omit below in
theorem directiveLocation : Reads extentOf depth Grammar.directiveLocation
    (fun depth place name after => decide (name.text ∈ directiveLocations) = true ∧
      Phrase.node extentOf .constant .name depth place name after)
    (.single [.kind .name] (.name "FIELD")) := by
  let allowed : String → Bool := (· ∈ directiveLocations)
  have allowed_eq (text : String) :
      allowed text = (DirectiveLocation.ofName? text).isSome := by
    rw [Bool.eq_iff_iff, isSome_ofName?_iff, decide_eq_true_iff]
  refine (nameIf allowed locationFault "FIELD" (fun _ _ => by
    simp [Lexeme.kind]) (by decide)
    .constant).of_readAt_eq ?_
  intro terms depth place closed
  cases current : place.current with
  | name text =>
      have more : place.current ≠ .endOfFile := by simp [current]
      obtain ⟨after, taken, covers, _⟩ :
          ∃ after, advance.readAt terms depth place = .ok ((), after) ∧
          place.Covers [place.current] after ∧ after.Closed terms.bound :=
        readAt_advance_of_closed closed more
      have read : Grammar.name.readAt terms depth place =
          .ok (⟨text, terms.extentOf place.ordinal after.ordinal⟩, after) := by
        refine readAt_located_eq_ok.mpr ⟨fun extent => ⟨text, extent⟩, ?_, rfl⟩
        rw [readAt_peek_current_bind, current, readAt_bind_of_ok taken]
        rfl
      rw [Grammar.directiveLocation, readAt_bind_of_ok read]
      cases known : DirectiveLocation.ofName? text with
      | some location =>
          have made : (Rule.take (makeName allowed) locationFault).readAt
              terms depth place =
              .ok (fun extent => ⟨text, extent⟩, after) := by
            rw [Rule.take, readAt_peek_current_bind, current]
            simp only [makeName, allowed_eq, known, Option.isSome_some, if_true]
            rw [readAt_bind_of_ok taken]
            rfl
          exact (readAt_located_eq_ok.mpr ⟨_, made, rfl⟩).symm
      | none =>
          have made : (Rule.take (makeName allowed) locationFault).readAt
              terms depth place =
              .error (some
                (.grammatical (.unknownDirectiveLocation text) place.ordinal)) := by
            rw [Rule.take, readAt_peek_current_bind, current]
            simp only [makeName, allowed_eq, known, Option.isSome_none]
            rfl
          have refused :
              (refuse .last (.unknownDirectiveLocation text) : Rule (Name Extent)).readAt
              terms depth after = _ :=
                (readAt_bind_of_ok taken).symm.trans (readAt_advance_refuse closed more _)
          exact refused.trans (readAt_located_eq_error.mpr made).symm
  | _ =>
      have refused : Grammar.name.readAt terms depth place =
          .error (some (.grammatical (.expected .name place.current) place.ordinal)) := by
        refine readAt_located_eq_error.mpr ?_
        rw [readAt_peek_current_bind, current]
        rfl
      rw [Grammar.directiveLocation, readAt_bind_eq_error.mpr (.inl refused)]
      refine (readAt_located_eq_error.mpr ?_).symm
      rw [Rule.take, readAt_peek_current_bind, current]
      rfl

theorem directiveDefinition : ReadsDescribed extentOf depth Grammar.directiveDefinition
    (Phrase.node extentOf .variable fun definition => .definition (.directive definition))
    ⟨false, Sign.strings ++ [.word "directive"], [.mark .pipe], [],
      [.name "directive", .punctuator .atSign, .name "a", .name "on",
        .name "FIELD"]⟩ := by
  have place : Reads extentOf depth Grammar.directiveLocation _ _ := directiveLocation
  have places :
      Reads extentOf depth (Rule.separated .pipe Grammar.directiveLocation) _ _ :=
    separated place .directiveLocation (by decide) (by decide)
  have tail := fun description name arguments => (optionalKeyword "repeatable").bind
    (fun isRepeatable => (keyword "on").bind (fun _ => places.map fun locations extent =>
      DirectiveDefinition.mk description name arguments isRepeatable locations extent) (by
        decide))
    (by decide)
  have named := fun description => (name .variable).bind (fun name =>
    (argumentDefinitions below).bind (fun arguments => tail description name arguments)
      (by decide)) (by decide)
  have marked :=
    fun description => (keyword "directive").bind (fun _ => (mark .atSign).bind
      (fun _ => named description) (by decide)) (by decide)
  have reads := described marked (by decide)
  refine .congr (.relax reads rfl (by decide) (by decide) (by decide) rfl) ?_
  rintro depth place ⟨description, name, arguments, isRepeatable, locations,
    location⟩ after
  rw [Phrase.node_iff, Node.derives_iff rfl]
  simp only [Node.parts, Node.location, Definition.parts, Definition.location,
    DirectiveDefinition.parts, Spells.append_iff, Spells.word_iff, Spells.mark_iff,
    Spells.name_iff, Spells.provided_iff, Spells.flag_iff, Spells.nil_iff]
  constructor
  · rintro ⟨_, ⟨description, _, described, _, _, keyword, _, _, atSign, name, _,
      named, arguments, _,
      spells, isRepeatable, _, repeatable, _, _, on, locations, _, places, rfl, rfl⟩,
        equal⟩
    cases equal
    obtain ⟨known, places⟩ := Phrase.separated_and_iff.mp places
    have nonempty := Spells.separated_ne_nil places
    rw [Phrase.word_iff] at keyword on
    rw [Phrase.mark_iff] at atSign
    exact ⟨⟨_, ⟨_,
      ⟨_, ⟨_, ⟨_, described, _, keyword, _, atSign, _, named, rfl⟩, spells⟩, repeatable⟩,
      _, on, by simpa using nonempty, known, rfl⟩,
        (Spells.separated_iff nonempty).mpr places⟩, rfl⟩
  · rintro ⟨⟨_,
      ⟨_, ⟨_, ⟨_, ⟨_, described, _, keyword, _, atSign, _, named, rfl⟩, spells⟩,
        repeatable⟩,
      _, on, nonempty, known, rfl⟩, places⟩, rfl⟩
    have places := (Spells.separated_iff (by simpa using nonempty)).mp places
    exact ⟨_, ⟨description, _, described, (), _, Phrase.word_iff.mpr keyword, (), _,
      Phrase.mark_iff.mpr atSign, name, _, named, arguments, _, spells, isRepeatable,
        _, repeatable,
      (), _, Phrase.word_iff.mpr on, locations, _,
        Phrase.separated_and_iff.mpr ⟨known, places⟩, rfl,
      rfl⟩, rfl⟩

end Reads

end GraphQL
