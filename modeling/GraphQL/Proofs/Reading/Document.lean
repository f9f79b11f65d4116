import GraphQL.Proofs.Reading.TypeSystem

/-! How definitions are read, and one after another. -/

namespace GraphQL

variable {α : Type} {extentOf : Nat → Nat → Extent} {depth : Nat}

open Rule

/-! ## The token ahead -/

namespace Place

variable {place other : Place} {stop bound : Nat}

def next (place : Place) : Lexeme := foremost place.ahead.tail

theorem Shares.next (shares : place.Shares other stop) (lt : place.ordinal + 1 < stop) :
    other.next = place.next := by
  obtain ⟨_, same⟩ := shares
  obtain ⟨count, equal⟩ : ∃ count, stop - place.ordinal = count + 2 :=
    ⟨stop - place.ordinal - 2, by omega⟩
  rw [equal] at same
  have second : ∀ lexemes : List Lexeme,
      foremost lexemes.tail = foremost (lexemes.take (count + 2)).tail := by
    rintro (_ | ⟨_, _ | ⟨_, _⟩⟩) <;> rfl
  rw [Place.next, second, same, ← second, Place.next]

end Place

theorem Rule.readAt_peek_ahead_bind {terms : Terms} {place : Place} {bound : Nat}
    (closed : place.Closed bound) (more : place.current ≠ .endOfFile)
    (second : Lexeme → Rule α) :
    (peek .ahead >>= second).readAt terms depth place =
      (second place.next).readAt terms depth place := by
  obtain ⟨next, rest, ahead⟩ := closed.next more
  rw [readAt_bind_of_ok (readAt_peek_ahead ahead), Place.next, ahead]
  rfl

theorem Rule.readAt_refuse_ahead {terms : Terms} {place : Place} {bound : Nat}
    (closed : place.Closed bound) (more : place.current ≠ .endOfFile)
    (fault : GrammarFault) :
    (refuse .ahead fault : Rule α).readAt terms depth place =
      .error (some (.grammatical fault (place.ordinal + 1))) := by
  obtain ⟨next, rest, ahead⟩ := closed.next more
  change Reader.refuse terms .ahead fault place = _
  rw [Reader.refuse, Reader.look, ahead]

namespace ReadsFrom

variable {phrase : Phrase α} {profile : Profile} {here : Place → Prop}

/-- Deciding by the token ahead. Whatever is read then must blame no token before it. -/
theorem peekAhead {second : Lexeme → Rule α}
    (more : ∀ {place}, here place → place.current ≠ .endOfFile)
    (positive : ∀ {depth place value after}, phrase depth place value after →
      place.ordinal < after.ordinal)
    (reads : ∀ next,
      ReadsFrom extentOf (fun place => here place ∧ place.next = next) depth
      (second next) phrase profile)
    (past : ∀ {next place limit bound fault blamed}, place.Closed bound → here place →
      (second next).readAt (.whole extentOf limit bound) depth place =
        .error (some (.grammatical fault blamed)) → place.ordinal < blamed) :
    ReadsFrom extentOf here depth (Rule.peek .ahead >>= second) phrase profile where
  sound closed known outcome := by
    rw [readAt_peek_ahead_bind closed (more known)] at outcome
    exact (reads _).sound closed ⟨known, rfl⟩ outcome
  complete closed known bare holds := by
    rw [readAt_peek_ahead_bind closed (more known)]
    exact (reads _).complete closed ⟨known, rfl⟩ bare holds
  fails closed known outcome := by
    rw [readAt_peek_ahead_bind closed (more known)] at outcome
    exact (reads _).fails closed ⟨known, rfl⟩ outcome
  agrees {_ _ stop _ _ _ _ _ _ after _ _} closed closed' known shares outcome
    outcome' lt := by
    rw [readAt_peek_ahead_bind closed (more known)] at outcome
    have lt' := positive ((reads _).covers closed ⟨known, rfl⟩ outcome)
    have current := shares.current (Nat.lt_trans lt' lt)
    rw [readAt_peek_ahead_bind closed' (by rw [current]; exact more known),
      shares.next (Nat.lt_of_le_of_lt lt' lt)] at outcome'
    exact (reads _).agrees closed closed' ⟨known, rfl⟩ shares outcome outcome' lt
  blames {place _ stop _ _ _ _ _ _ _ _ _} closed closed' known shares outcome
    outcome' misfit := by
    rw [readAt_peek_ahead_bind closed (more known)] at outcome
    have le := past closed known outcome
    rcases Nat.lt_or_ge (place.ordinal + 1) stop with lt | ge
    · have current := shares.current (Nat.lt_of_succ_lt lt)
      rw [readAt_peek_ahead_bind closed' (by rw [current]; exact more known),
        shares.next lt] at outcome'
      exact (reads _).blames closed closed' ⟨known, rfl⟩ shares outcome outcome' misfit
    · exact Nat.le_trans ge le

theorem refuseAhead (fault : GrammarFault)
    (more : ∀ {place}, here place → place.current ≠ .endOfFile)
    (missing : ∀ {place value after}, here place → ¬ phrase depth place value after)
    (viable : ∀ {place bound}, place.Closed bound → here place →
      phrase.Viable profile.barred depth place (place.ordinal + 1)) :
    ReadsFrom extentOf here depth (refuse .ahead fault) phrase profile where
  sound closed known outcome := by
    rw [readAt_refuse_ahead closed (more known)] at outcome
    cases outcome
  complete _ known _ holds := (missing known holds).elim
  fails closed known outcome := by
    rw [readAt_refuse_ahead closed (more known)] at outcome
    cases outcome
    exact ⟨fault, _, rfl, Nat.le_succ _, fun _ => viable closed known⟩
  agrees closed _ known _ outcome := by
    rw [readAt_refuse_ahead closed (more known)] at outcome
    cases outcome
  blames _ _ _ _ _ outcome' := by
    change Reader.refuse _ .ahead fault _ = _ at outcome'
    unfold Reader.refuse at outcome'
    split at outcome' <;> cases outcome'

end ReadsFrom

/-! ## What definitions begin with -/

/-- The word by which a definition is told from others -/
def Definition.keyword : Definition Extent → String
  | .operation definition => definition.operation.keyword
  | .fragment _ => "fragment"
  | .schema _ => "schema"
  | .scalar _ => "scalar"
  | .object _ => "type"
  | .interface _ => "interface"
  | .union _ => "union"
  | .enum _ => "enum"
  | .inputObject _ => "input"
  | .directive _ => "directive"

namespace Definition

variable {definition : Definition Extent} {place after : Place} {constness : Constness}

theorem parts_of_not_executable (other : definition.isExecutable = false) :
    ∃ description rest, definition.parts =
      Part.description description ++ Part.word definition.keyword :: rest := by
  cases definition with
  | operation | fragment => cases other
  | _ definition =>
      refine ⟨definition.description, ?_⟩
      simp only [parts, keyword, SchemaDefinition.parts, ScalarTypeDefinition.parts,
        FieldedTypeDefinition.parts, UnionTypeDefinition.parts, EnumTypeDefinition.parts,
        InputObjectTypeDefinition.parts, DirectiveDefinition.parts, List.append_assoc,
        List.cons_append, List.nil_append]
      exact ⟨_, rfl⟩

theorem keyword_isSome (other : definition.isExecutable = false) :
    (Grammar.definitionOfKeyword? definition.keyword).isSome = true := by
  cases definition <;> first | rfl | cases other

theorem begins
    (derives : (Node.definition definition).Derives extentOf depth constness
      place after) :
    (place.current = .punctuator .leftBrace ∧
      ∃ operation, definition = .operation operation) ∨
      place.current = .name definition.keyword ∨
      Grammar.isString place.current = true ∧ place.next = .name definition.keyword ∧
        definition.isExecutable = false := by
  obtain ⟨spells, _⟩ := (Node.derives_iff rfl).mp derives
  by_cases executable : definition.isExecutable = true
  · cases definition with
    | operation operation =>
        rcases (Reads.derives_operation_iff.mp derives).1 with ⟨_,
          opened⟩ | ⟨_, keyword, _⟩
        · obtain ⟨shown, _⟩ := ((Nonterminal.describes .selectionSet).starts
            ((Node.derives_iff_of_nested rfl).mp opened)).resolve_left fun empty =>
              Bool.false_ne_true empty.1
          exact .inl ⟨by simpa [Nonterminal.profile] using shown, operation, rfl⟩
        · exact .inr (.inl keyword.current)
    | fragment fragment =>
        simp only [Node.parts, parts, FragmentDefinition.parts, List.cons_append,
          Spells.word_iff] at spells
        obtain ⟨_, covers, _⟩ := spells
        exact .inr (.inl covers.current)
    | _ => cases executable
  · rw [Bool.not_eq_true] at executable
    obtain ⟨description, rest, parts⟩ := parts_of_not_executable executable
    rw [Node.parts, parts, Spells.append_iff] at spells
    obtain ⟨middle, described, spells⟩ := spells
    obtain ⟨_, covers, _⟩ := Spells.word_iff.mp spells
    right
    cases description with
    | none =>
        cases Spells.nil_iff.mp described
        exact .inl covers.current
    | some literal =>
        right
        rw [Part.description, Option.map_some, Option.toList_some, Spells.child_iff]
          at described
        obtain ⟨_, derives, done⟩ := described
        cases Spells.nil_iff.mp done
        obtain ⟨covers', _⟩ := StringValue.derives_iff.mp derives
        refine ⟨?_, ?_, executable⟩
        · rw [covers'.current, StringValue.lexeme]
          cases literal.isBlock <;> rfl
        · rw [Place.next, (covers'.trans covers).1]
          rfl

theorem keyword_of_current {word : String} (current : place.current = .name word)
    (derives : (Node.definition definition).Derives extentOf depth constness
      place after) :
    definition.keyword = word := by
  rcases begins derives with ⟨found, _⟩ | found | ⟨found, _, _⟩
  · rw [current] at found
    cases found
  · rw [current] at found
    cases found
    rfl
  · rw [current] at found
    cases found

theorem next_of_isString (isString : Grammar.isString place.current = true)
    (derives : (Node.definition definition).Derives extentOf depth constness
      place after) :
    place.next = .name definition.keyword ∧ definition.isExecutable = false := by
  rcases begins derives with ⟨brace, _⟩ | word | ⟨_, next⟩
  · rw [brace] at isString
    cases isString
  · rw [word] at isString
    cases isString
  · exact next

end Definition

/-! ## Definitions -/

def Profile.definition : Profile where
  nullable := false
  first := Sign.strings ++
    [.mark .leftBrace, .word "query", .word "mutation", .word "fragment",
    .word "schema", .word "scalar", .word "type", .word "interface",
      .word "union", .word "enum",
    .word "input", .word "directive"]
  tails := [.mark .pipe, .mark .equals, .mark .ampersand, .mark .atSign, .mark .leftParen,
    .word "implements"]
  barred := [.mark .leftBrace]
  sample := [.name "scalar", .name "a"]

theorem Definition.describes :
    Profile.definition.Describes (Phrase.node extentOf .variable .definition) where
  starts {_ place definition after} derives := by
    refine .inr ⟨?_, derives.lt⟩
    rcases definition.begins derives with ⟨current, _⟩ | current | ⟨isString, _, _⟩
    · simp [Profile.definition, current]
    · rw [current]
      cases definition with
      | operation definition =>
          obtain ⟨operation, _⟩ := definition
          cases operation <;> simp [keyword, OperationKind.keyword, Profile.definition]
      | _ => simp [keyword, Profile.definition]
    · exact Shown.append_iff.mpr
        (.inl (by simpa [Grammar.isString, Sign.strings] using isString))
  sample {_ ahead} ordinal _ _ := by
    let name : Name Extent := ⟨"a", extentOf (ordinal + 1) (ordinal + 2)⟩
    refine ⟨.scalar ⟨none, name, [], extentOf ordinal (ordinal + 2)⟩, ?_⟩
    rw [Phrase.Holds, Phrase.node_iff, Node.derives_iff rfl]
    simp [Node.parts, parts, ScalarTypeDefinition.parts, Part.description,
      Part.directives, Node.location, location, Profile.definition, name]

theorem Definition.describedScalar {found : Lexeme}
    (isString : Grammar.isString found = true) (ordinal : Nat) (ahead : List Lexeme) :
    ∃ definition, (Phrase.node extentOf .variable Node.definition).Holds depth ordinal
      [found, .name "scalar", .name "a"] ahead definition := by
  have literal : ∃ string : StringValue Extent,
      string.lexeme = found ∧ string.location = extentOf ordinal (ordinal + 1) := by
    cases found with
    | string text => exact ⟨⟨text, false, _⟩, rfl, rfl⟩
    | blockString text => exact ⟨⟨text, true, _⟩, rfl, rfl⟩
    | _ => cases isString
  obtain ⟨string, rfl, location⟩ := literal
  let name : Name Extent := ⟨"a", extentOf (ordinal + 2) (ordinal + 3)⟩
  refine ⟨.scalar ⟨some string, name, [], extentOf ordinal (ordinal + 3)⟩, ?_⟩
  rw [Phrase.Holds, Phrase.node_iff, Node.derives_iff rfl]
  simp [Node.parts, parts, ScalarTypeDefinition.parts, Part.description, Part.directives,
    Node.location, Definition.location, name, StringValue.derives_iff, location]

theorem Definition.viable_of_isString {place : Place} {bound : Nat}
    (closed : place.Closed bound) (isString : Grammar.isString place.current = true) :
    (Phrase.node extentOf .variable Node.definition).Viable [.mark .leftBrace] depth place
      (place.ordinal + 1) := by
  have more : place.current ≠ .endOfFile := fun current => by
    rw [current] at isString
    cases isString
  obtain ⟨next, rest, ahead⟩ := closed.next more
  exact ⟨[place.current], next :: rest, ahead, by simp, rfl,
    .inr ⟨[.name "scalar", .name "a"], by decide, fun deeper _ behind _ =>
      describedScalar isString place.ordinal behind⟩⟩

namespace ReadsFrom

variable {here : Place → Prop}

theorem definition {rule : Rule α} {build : α → Definition Extent} {profile : Profile}
    (reads : Reads extentOf depth rule
      (Phrase.node extentOf .variable fun definition =>
        .definition (build definition)) profile)
    (only : ∀ {place definition after}, here place →
      (Node.definition definition).Derives extentOf depth .variable place after →
        ∃ value, definition = build value)
    (tails : ∀ sign ∈ profile.tails, sign ∈ Profile.definition.tails)
    (barred : ∀ sign ∈ profile.barred, sign ∈ Profile.definition.barred) :
    ReadsFrom extentOf here depth (build <$> rule)
      (Phrase.node extentOf .variable .definition)
      .definition := by
  refine ((reads.map build).reads.weaken fun _ _ => trivial).widen ?_ ?_ tails barred
  · rintro depth place definition after ⟨value, _, derives, rfl, rfl⟩
    exact derives
  · intro place definition after known _ derives
    obtain ⟨value, rfl⟩ := only known derives
    exact ⟨value, after, derives, rfl, rfl⟩

theorem noDefinition {found : Lexeme} {rule : Rule (Definition Extent)}
    (fault : GrammarFault) (refuses : rule = refuse .current fault)
    (missing : ∀ {place : Place} {definition : Definition Extent} {after},
      place.current = found →
      ¬ (Node.definition definition).Derives extentOf depth .variable place after) :
    ReadsFrom extentOf (fun place => True ∧ place.current = found) depth rule
      (Phrase.node extentOf .variable .definition) .definition := by
  subst refuses
  refine .never (fun current => True ∧ current = found) (fun _ _ _ _ _ _ => ⟨_, rfl⟩) ?_
  rintro place definition after ⟨_, current⟩ _ derives
  exact missing current derives

end ReadsFrom

theorem OperationKind.keyword_eq_iff {operation : OperationKind} {word : String} :
    operation.keyword = word ↔
      operation = .query ∧ word = "query" ∨
      operation = .mutation ∧ word = "mutation" := by
  cases operation <;> simp [keyword, eq_comm]

section

variable (below : ReadsNested extentOf depth) {here : Place → Prop}

include below

theorem ReadsFrom.typeSystemDefinition {word : String} {rule : Rule (Definition Extent)}
    (known : Grammar.definitionOfKeyword? word = some rule)
    (only : ∀ {place definition after}, here place →
      (Node.definition definition).Derives extentOf depth .variable place after →
        definition.keyword = word) :
    ReadsFrom extentOf here depth rule
      (Phrase.node extentOf .variable .definition) .definition ∧
      ∀ {place limit bound fault blamed}, place.Closed bound →
        Grammar.isString place.current = true →
          rule.readAt (.whole extentOf limit bound) depth place =
            .error (some (.grammatical fault blamed)) → place.ordinal < blamed := by
  have described :
      ∀ {α : Type} {rule : Rule α} {build : α → Definition Extent} {profile : Profile},
      ReadsDescribed extentOf depth rule
        (Phrase.node extentOf .variable fun definition =>
          .definition (build definition)) profile →
      (∀ definition : Definition Extent, definition.keyword = word →
        ∃ value, definition = build value) →
      (∀ sign ∈ profile.tails, sign ∈ Profile.definition.tails) →
      (∀ sign ∈ profile.barred, sign ∈ Profile.definition.barred) →
      ReadsFrom extentOf here depth (build <$> rule)
        (Phrase.node extentOf .variable .definition)
          .definition ∧
        ∀ {place limit bound fault blamed}, place.Closed bound →
          Grammar.isString place.current = true →
            (build <$> rule).readAt (.whole extentOf limit bound) depth place =
              .error (some (.grammatical fault blamed)) → place.ordinal < blamed := by
    intro α rule build profile reads kind tails barred
    refine ⟨.definition reads.toReads
      (fun here derives => kind _ (only here derives)) tails barred, ?_⟩
    intro place limit bound fault blamed closed isString outcome
    rcases readAt_bind_eq_error.mp outcome with outcome | ⟨_, _, _, outcome⟩
    · exact reads.past closed isString outcome
    · cases outcome
  unfold Grammar.definitionOfKeyword? at known
  split at known
  repeat' split at known
  all_goals
    cases known
    try subst word
  · refine described (Reads.schemaDefinition below) (fun definition equal => ?_)
      (by decide) (by decide)
    cases definition <;>
      simp [Definition.keyword, OperationKind.keyword_eq_iff] at equal ⊢
  · refine described (Reads.scalarTypeDefinition below) (fun definition equal => ?_)
      (by decide) (by decide)
    cases definition <;>
      simp [Definition.keyword, OperationKind.keyword_eq_iff] at equal ⊢
  · refine described
      (Reads.fieldedTypeDefinition below "type" (by decide) .object fun _ => ⟨rfl, rfl⟩)
      (fun definition equal => ?_) (by decide) (by decide)
    cases definition <;>
      simp [Definition.keyword, OperationKind.keyword_eq_iff] at equal ⊢
  · refine described
      (Reads.fieldedTypeDefinition below "interface" (by decide) .interface
        fun _ => ⟨rfl, rfl⟩)
      (fun definition equal => ?_) (by decide) (by decide)
    cases definition <;>
      simp [Definition.keyword, OperationKind.keyword_eq_iff] at equal ⊢
  · refine described (Reads.unionTypeDefinition below) (fun definition equal => ?_)
      (by decide) (by decide)
    cases definition <;>
      simp [Definition.keyword, OperationKind.keyword_eq_iff] at equal ⊢
  · refine described (Reads.enumTypeDefinition below) (fun definition equal => ?_)
      (by decide) (by decide)
    cases definition <;>
      simp [Definition.keyword, OperationKind.keyword_eq_iff] at equal ⊢
  · refine described (Reads.inputObjectTypeDefinition below) (fun definition equal => ?_)
      (by decide) (by decide)
    cases definition <;>
      simp [Definition.keyword, OperationKind.keyword_eq_iff] at equal ⊢
  · refine described (Reads.directiveDefinition below) (fun definition equal => ?_)
      (by decide) (by decide)
    cases definition <;>
      simp [Definition.keyword, OperationKind.keyword_eq_iff] at equal ⊢

theorem ReadsFrom.keywordDefinition (word : String) :
    ReadsFrom extentOf (fun place => True ∧ place.current = .name word) depth
      (Grammar.keywordDefinition word)
        (Phrase.node extentOf .variable .definition) .definition := by
  have kinds : ∀ definition : Definition Extent, definition.keyword = word →
      word = "query" ∨ word = "mutation" ∨ word = "fragment" ∨
        (Grammar.definitionOfKeyword? word).isSome = true := by
    rintro definition rfl
    cases definition with
    | operation definition =>
        rcases definition with ⟨_ | _, _⟩ <;>
          simp [Definition.keyword, OperationKind.keyword]
    | fragment => simp [Definition.keyword]
    | _ => exact .inr (.inr (.inr (Definition.keyword_isSome rfl)))
  unfold Grammar.keywordDefinition
  split
  next isOperation =>
    refine .definition (Reads.operationDefinition below)
      (fun {_ definition _} here derives => ?_)
      (by decide) (by decide)
    have equal := Definition.keyword_of_current here.2 derives
    rcases isOperation with rfl | rfl <;> cases definition <;>
      simp [Definition.keyword] at equal ⊢
  next notOperation =>
  split
  next isFragment =>
    refine .definition (Reads.fragmentDefinition below)
      (fun {_ definition _} here derives => ?_)
      (by decide) (by decide)
    have equal := Definition.keyword_of_current here.2 derives
    subst word
    cases definition <;>
      simp [Definition.keyword, OperationKind.keyword_eq_iff] at equal ⊢
  next notFragment =>
  split
  next isExtend =>
    refine .noDefinition _ rfl fun current derives => ?_
    subst word
    have := kinds _ (Definition.keyword_of_current current derives)
    simp [Grammar.definitionOfKeyword?] at this
  next notExtend =>
  split
  next isSubscription =>
    refine .noDefinition _ rfl fun current derives => ?_
    subst word
    have := kinds _ (Definition.keyword_of_current current derives)
    simp [Grammar.definitionOfKeyword?] at this
  next notSubscription =>
  cases known : Grammar.definitionOfKeyword? word with
  | some rule =>
      exact (typeSystemDefinition below known fun here derives =>
        Definition.keyword_of_current here.2 derives).1
  | none =>
      refine .noDefinition _ rfl fun current derives => ?_
      have := kinds _ (Definition.keyword_of_current current derives)
      simp_all

theorem ReadsFrom.describedDefinition {found : Lexeme}
    (isString : Grammar.isString found = true) :
    ReadsFrom extentOf (fun place => True ∧ place.current = found) depth
      Grammar.describedDefinition
        (Phrase.node extentOf .variable .definition) .definition := by
  have more : found ≠ .endOfFile := by
    rintro rfl
    cases isString
  have refused : ∀ {next : Lexeme} (fault : GrammarFault),
      (∀ definition : Definition Extent, definition.isExecutable = false →
        next ≠ .name definition.keyword) →
      ReadsFrom extentOf (fun place => (True ∧ place.current = found) ∧
        place.next = next) depth
        (refuse .ahead fault)
          (Phrase.node extentOf .variable .definition) .definition := by
    intro next fault missing
    refine .refuseAhead _ (fun here => by
      rw [here.1.2]; exact more) (fun here derives => ?_)
      (fun closed here => Definition.viable_of_isString closed (by
        rw [here.1.2]; exact isString))
    obtain ⟨keyword, other⟩ :=
      Definition.next_of_isString (by rw [here.1.2]; exact isString) derives
    exact missing _ other (here.2.symm.trans keyword)
  refine .peekAhead (fun known => by
    rw [known.2]; exact more) (fun derives => derives.lt) ?_ ?_
  · intro next
    cases next with
    | name word =>
        cases known : Grammar.definitionOfKeyword? word with
        | some rule =>
            simp only [known]
            refine (typeSystemDefinition below known fun here derives => ?_).1
            obtain ⟨keyword, _⟩ :=
              Definition.next_of_isString (by rw [here.1.2]; exact isString) derives
            rw [here.2] at keyword
            cases keyword
            rfl
        | none =>
            simp only [known]
            refine refused _ fun definition other equal => ?_
            cases equal
            have isSome := definition.keyword_isSome other
            rw [known] at isSome
            cases isSome
    | _ => exact refused _ fun _ _ => nofun
  · intro next place limit bound fault blamed closed here outcome
    have ahead :
        ∀ fault' : GrammarFault, (refuse .ahead fault' : Rule (Definition Extent)).readAt
        (.whole extentOf limit bound) depth place =
          .error (some (.grammatical fault blamed)) →
        place.ordinal < blamed := by
      intro fault' outcome
      rw [readAt_refuse_ahead closed (by rw [here.2]; exact more)] at outcome
      cases outcome
      exact Nat.lt_succ_self _
    cases next with
    | name word =>
        cases known : Grammar.definitionOfKeyword? word with
        | some rule =>
            simp only [known] at outcome
            have reads :=
              typeSystemDefinition below known fun (never : False) => never.elim
            exact reads.2 closed (by rw [here.2]; exact isString) outcome
        | none =>
            simp only [known] at outcome
            exact ahead _ outcome
    | _ => exact ahead _ outcome

theorem Reads.definition : Reads extentOf depth Grammar.definition
    (Phrase.node extentOf .variable .definition) .definition where
  toDescribes := Definition.describes
  reads := by
    refine .peek fun found => ?_
    have refused : found ≠ .punctuator .leftBrace → (∀ word, found ≠ .name word) →
        Grammar.isString found = false → ∀ fault,
        ReadsFrom extentOf (fun place => True ∧ place.current = found) depth
          (refuse .current fault)
          (Phrase.node extentOf .variable .definition) .definition := by
      intro brace word string fault
      refine .noDefinition _ rfl fun {place definition _} current derives => ?_
      rcases definition.begins derives with ⟨equal, _⟩ | equal | ⟨isString, _⟩
      · exact brace (current.symm.trans equal)
      · exact word _ (current.symm.trans equal)
      · rw [current, string] at isString
        cases isString
    cases found with
    | punctuator mark =>
        cases mark with
        | leftBrace =>
            refine .definition (operationDefinition below)
              (fun {_ definition _} here derives => ?_)
              (by decide) (by decide)
            rcases definition.begins derives with ⟨_, equal⟩ | equal | ⟨isString, _⟩
            · exact equal
            · rw [here.2] at equal
              cases equal
            · rw [here.2] at isString
              cases isString
        | _ => exact refused nofun nofun rfl _
    | name word => exact .keywordDefinition below word
    | string text => exact .describedDefinition below rfl
    | blockString text => exact .describedDefinition below rfl
    | _ => exact refused nofun nofun rfl _

end

/-- `Definition+`, as many as there are up to the end of the source -/
def Grammar.definitions : Rule (List (Definition Extent)) := do
  let first ← definition
  let others ← repeatWhile (!·.isEndOfFile) definition
  return first :: others

namespace Reads

/-! ## Whole documents -/

theorem nestedParts (extentOf : Nat → Nat → Extent) (depth : Nat) :
    ReadsNested extentOf depth := by
  induction depth with
  | zero => exact fun _ equal => nomatch equal
  | succ depth induction =>
      intro shallower equal part
      cases equal
      cases part with
      | selectionSet => exact (selections induction).reads
      | list constness => exact (listValue induction constness).reads
      | object constness => exact (objectValue induction constness).reads
      | listElement => exact (typeReference induction).reads

theorem definitions : Reads extentOf depth Grammar.definitions
    (fun depth place definitions after => definitions ≠ [] ∧
      (Phrase.node extentOf .variable Node.definition).star depth place definitions after)
    ⟨false, Profile.definition.first, .other .endOfFile :: Profile.definition.tails,
      [.mark .leftBrace], [.name "scalar", .name "a"]⟩ := by
  have item : Reads extentOf depth Grammar.definition _ _ :=
    definition (nestedParts extentOf depth)
  have promises : ∀ found : Lexeme, (!found.isEndOfFile) = true ↔
      Shown [.other .endOfFile] found := by
    intro found
    cases found <;> simp [Lexeme.isEndOfFile, Lexeme.kind]
  have others := item.repeatWhile (.item (.definition _)) rfl promises
    (fun found shown => by
      have apart : ¬ Shown [.kind .endOfFile] found := shown.not_of_apart (by decide)
      simpa using apart) (by decide)
  refine .congr
    (.relax (item.bind (fun first => others.map (first :: ·)) (by decide)) rfl (by decide)
    (by decide) (by decide) rfl) ?_
  intro depth place definitions after
  constructor
  · rintro ⟨first, _, derives, others, _, rest, rfl, rfl⟩
    exact ⟨List.cons_ne_nil _ _, _, derives, rest⟩
  · rintro ⟨nonempty, holds⟩
    obtain ⟨first, others, rfl⟩ := List.exists_cons_of_ne_nil nonempty
    obtain ⟨middle, derives, rest⟩ := holds
    exact ⟨first, middle, derives, others, _, rest, rfl, rfl⟩

end Reads

end GraphQL
