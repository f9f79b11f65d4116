import GraphQL.Proofs.Lexing.Writing
import GraphQL.Proofs.Parsing.Soundness

/-! Enum values, declared and used.

An enum may declare any name as one of its values. Where a value is read, a name is taken
for an enum value unless it is one of the three words that stand for other values. -/

namespace GraphQL

open ParseOptions (Note)

variable {L : Type} {source : Source} {options : ParseOptions} {text : String}

def Node.enumValue? : Node L → Option (EnumValueDefinition L)
  | .enumValueDefinition declared => some declared
  | _ => none

def Document.enumValues (document : Document L) : List (EnumValueDefinition L) :=
  document.rows.filterMap (·.node.enumValue?)

/-- There is a document that declares a value of that name. -/
def IsDeclarable (text : String) : Prop :=
  ∃ source options document, parse source options = .ok document ∧
    ∃ definition ∈ document.enumValues, definition.name.text = text

/-- There is a source that is parsed as the enum value of that name. -/
def IsEnumLiteral (text : String) : Prop :=
  ∃ source options note, parseValue source options = .ok (.enum text note)

/-- What comes of a name where a value is read -/
structure ReadsName (text : String) (parsed : Except Diagnostic (Value Note)) : Prop where
  enum : text ∉ ["true", "false", "null"] → ∃ note, parsed = .ok (.enum text note)
  boolean : ∀ value : Bool, text = (if value then "true" else "false") →
    ∃ note, parsed = .ok (.boolean value note)
  null : text = "null" → ∃ note, parsed = .ok (.null note)

/-! ## Names as values -/

theorem Source.exists_consists_of_laidOut {said : List Lexeme}
    (laid : LaidOut said source.chars)
    (plain : ∀ lexeme ∈ said, lexeme.isPlain = true) :
    ∃ tokens, source.Consists tokens said := by
  obtain ⟨tokens, yields, equal⟩ := source.exists_yields_of_laidOut laid
  refine ⟨tokens, yields, ?_⟩
  rw [lexemes_eq_filter, equal, List.filter_eq_self]
  simp only [List.mem_cons, List.mem_append, List.not_mem_nil, or_false]
  rintro lexeme (rfl | member | rfl)
  · rfl
  · have isPlain := plain lexeme member
    cases lexeme <;> first | rfl | cases isPlain
  · rfl

theorem IsName.isPlain (isName : IsName text) : (Lexeme.name text).isPlain = true :=
  Bool.and_eq_true_iff.mpr (isName_iff.mp isName)

/-- A body that is a name is parsed as what the name stands for. -/
theorem exists_parseValue_of_isName (isName : IsName text) (body : source.body = text)
    (options : ParseOptions) :
    ∃ note, parseValue source options =
      .ok ((Grammar.valueOfName text ⟨1, 1⟩).map note) := by
  have laid : LaidOut [.name text] source.chars := by
    have alone : LaidOut [.name text] (text.toList ++ []) :=
      .cons isName.isReadFrom (by simp) (.nothing rfl)
    rw [List.append_nil] at alone
    exact body ▸ alone
  obtain ⟨tokens, consists⟩ := source.exists_consists_of_laidOut laid
    (List.forall_mem_singleton.mpr isName.isPlain)
  obtain ⟨isPlain, begins, location⟩ := Value.plain_valueOfName text ⟨1, 1⟩
  refine ⟨_, (parseValue_eq_ok consists).mpr ⟨_, ?_, rfl⟩⟩
  exact (Value.derives_iff_of_isPlain isPlain).mpr
    ⟨⟨.name text, ⟨rfl, rfl⟩, begins⟩, location⟩

theorem readsName_of_isName (isName : IsName text) (body : source.body = text)
    (options : ParseOptions) :
    ReadsName text (parseValue source options) := by
  obtain ⟨note, parsed⟩ := exists_parseValue_of_isName isName body options
  rw [parsed]
  refine ⟨fun other => ?_, fun value word => ?_, fun word => ?_⟩
  · simp only [List.mem_cons, List.not_mem_nil, or_false, not_or] at other
    exact ⟨note ⟨1, 1⟩, by simp [Grammar.valueOfName, other, Value.map]⟩
  · subst word
    cases value <;> exact ⟨note ⟨1, 1⟩, rfl⟩
  · subst word
    exact ⟨note ⟨1, 1⟩, rfl⟩

theorem isEnumLiteral_iff :
    IsEnumLiteral text ↔ IsName text ∧ text ∉ ["true", "false", "null"] := by
  constructor
  · rintro ⟨source, options, note, parsed⟩
    obtain ⟨tokens, inner, consists⟩ := consists_of_parseValue parsed
    obtain ⟨tree, derives, equal⟩ := (parseValue_eq_ok consists).mp parsed
    have named : ∀ word, .name word ∈ inner ++ [.endOfFile] →
        IsName word := fun word member =>
          consists.yields.isName (consists.lexemes_eq ▸ List.mem_cons_of_mem _ member)
    have sound : (Node.value tree).IsSound := Node.Derives.isSound derives named
    cases tree with
    | enum word location =>
        cases equal
        exact sound
    | _ => cases equal
  · rintro ⟨isName, other⟩
    have read : ReadsName text (parseValue { body := text } {}) :=
      readsName_of_isName isName rfl {}
    obtain ⟨note, parsed⟩ := read.enum other
    exact ⟨_, _, note, parsed⟩

/-! ## Names that are declared -/

theorem Document.mem_enumValues {document : Document L}
    {definition : EnumValueDefinition L} :
    definition ∈ document.enumValues ↔
      ∃ row ∈ document.rows, row.node = .enumValueDefinition definition := by
  rw [enumValues, List.mem_filterMap]
  refine exists_congr fun row => and_congr_right fun _ => ?_
  cases row.node <;> simp [Node.enumValue?]

theorem isName_of_mem_enumValues {document : Document Note}
    {definition : EnumValueDefinition Note}
    (parsed : parse source options = .ok document)
    (declared : definition ∈ document.enumValues) :
    IsName definition.name.text := by
  obtain ⟨row, member, isDefinition⟩ := Document.mem_enumValues.mp declared
  obtain ⟨tokens, inner, consists⟩ := consists_of_parse parsed
  obtain ⟨tree, derives, rfl⟩ := (parse_eq_ok consists).mp parsed
  have derived :
      Outline.Derived (options.noteBetween (significant tokens)) options.maxNestingDepth
      (tree.map (options.note (significant tokens).toArray)).outline ⟨0, lexemes tokens⟩
      ⟨inner.length + 2, []⟩ := ⟨.document, .variable, _, rfl, derives.map _⟩
  obtain ⟨outline, within, equal⟩ := Outline.exists_within_of_mem_rows member
  obtain ⟨first, last, ⟨covered, covers⟩, _, derived⟩ := derived.within within
  have said : lexemes tokens = covered ++ first.ahead := covers.1
  have named : ∀ word, .name word ∈ first.ahead → IsName word := fun word member =>
    consists.yields.isName (said ▸ List.mem_append_right _ member)
  have inside : (definition.name.outline .name).Within outline := by
    obtain ⟨role, constness, node, rfl, _⟩ := derived
    rw [Outline.node_outline, isDefinition] at equal
    subst equal
    exact .deeper (by
      simp [Node.children, EnumValueDefinition.outline, Outline.children]) (.refl _)
  exact derived.isSound inside named

def enumOf (text : String) : Definition Extent :=
  .enum ⟨none, ⟨"E", ⟨2, 2⟩⟩, [], [⟨none, ⟨text, ⟨4, 4⟩⟩, [], ⟨4, 4⟩⟩], ⟨1, 5⟩⟩

def lexemesOfEnum (text : String) : List Lexeme :=
  [.name "enum", .name "E", .punctuator .leftBrace, .name text, .punctuator .rightBrace]

theorem derives_enumOf (text : String) (depth : Nat) :
    (Node.definition (enumOf text)).Derives extentBetween depth .variable
      ⟨1, lexemesOfEnum text ++ [.endOfFile]⟩ ⟨6, [.endOfFile]⟩ := by
  have value :
      ∃ middle, (Node.enumValueDefinition ⟨none, ⟨text, ⟨4, 4⟩⟩, [], ⟨4, 4⟩⟩).Derives
        extentBetween depth
      .constant ⟨4, [.name text, .punctuator .rightBrace, .endOfFile]⟩ middle ∧
        middle.Covers [.punctuator .rightBrace] ⟨6, [.endOfFile]⟩ := by
    refine ⟨⟨5, [.punctuator .rightBrace, .endOfFile]⟩, ?_, rfl, rfl⟩
    rw [Node.derives_iff rfl]
    simp [Node.parts, EnumValueDefinition.parts, Part.description, Part.directives,
      Node.location, extentBetween]
  rw [Node.derives_iff rfl]
  simpa [enumOf, lexemesOfEnum, Node.parts, Definition.parts, EnumTypeDefinition.parts,
    Part.description,
    Part.directives, Part.inBraces, Node.location, Definition.location, extentBetween]
      using value

theorem isDeclarable_of_isName (isName : IsName text) : IsDeclarable text := by
  have plain : ∀ lexeme ∈ lexemesOfEnum text, lexeme.isPlain = true := by
    simp only [lexemesOfEnum, List.forall_mem_cons, isName.isPlain]
    decide
  let source : Source := { body := String.ofList (write (lexemesOfEnum text)) }
  have chars : source.chars = write (lexemesOfEnum text) := String.toList_ofList
  obtain ⟨tokens, consists⟩ :=
    source.exists_consists_of_laidOut (chars ▸ laidOut_write plain) plain
  let options : ParseOptions := {}
  have holds :
      (Phrase.node extentBetween .variable Node.definition).star.Holds
        options.maxNestingDepth 1
      (lexemesOfEnum text) [.endOfFile] [enumOf text] := ⟨_, derives_enumOf text _, rfl⟩
  obtain ⟨document, parsed, equal⟩ := (parse_definitions_iff consists).mpr
    ⟨[enumOf text], ⟨List.cons_ne_nil _ _, holds⟩, rfl⟩
  refine ⟨source, options, document, parsed, ?_⟩
  simp [Document.enumValues, Document.rows, Document.outline, equal, Outline.rows,
    Outline.rowsOfAll, enumOf,
    Definition.map, EnumTypeDefinition.map, EnumValueDefinition.map, Definition.outline,
      EnumValueDefinition.outline,
    descriptionOutline, Name.map, Name.outline, Node.enumValue?]

/-- The values that are declared are the names. -/
theorem isDeclarable_iff : IsDeclarable text ↔ IsName text :=
  ⟨fun ⟨_, _, _, parsed, _, declared, equal⟩ =>
    equal ▸ isName_of_mem_enumValues parsed declared,
    isDeclarable_of_isName⟩

/-! ## Declared names as values -/

/-- Read as a value, the name of an enum value that a document declares is
that enum value, unless it is one of three words. Just these can be declared
and are no enum values. -/
theorem declared_names_read (source : Source) (options : ParseOptions) :
    (∀ document, parse source options = .ok document → ∀ definition ∈ document.enumValues,
      ∀ alone options', alone.body = definition.name.text →
        ReadsName definition.name.text (parseValue alone options')) ∧
      (∀ text, IsDeclarable text ↔ IsEnumLiteral text ∨
        text ∈ ["true", "false", "null"]) ∧
        ∀ text, IsEnumLiteral text → text ∉ ["true", "false", "null"] := by
  refine ⟨fun document parsed definition declared alone options' body => ?_,
    fun text => ?_, fun text isLiteral => (isEnumLiteral_iff.mp isLiteral).2⟩
  · exact readsName_of_isName (isName_of_mem_enumValues parsed declared) body options'
  · have words : ∀ word ∈ ["true", "false", "null"], IsName word := by
      simp only [isName_iff]
      decide
    rw [isDeclarable_iff, isEnumLiteral_iff]
    by_cases word : text ∈ ["true", "false", "null"]
    · simp [words text word, word]
    · simp [word]

theorem declared_name_read :
    ∃ document definition, parse { body := "enum E\x7ba\x7d" } ⟨false, 3⟩ = .ok document ∧
      definition ∈ document.enumValues ∧ definition.name.text = "a" ∧
        ReadsName "a" (parseValue { body := "a" } ⟨false, 3⟩) := by
  have values : (parse { body := "enum E\x7ba\x7d" } ⟨false, 3⟩).toOption.map
      (·.enumValues.map (·.name.text)) =
      some ["a"] := by decide +kernel
  cases parsed : parse { body := "enum E\x7ba\x7d" } ⟨false, 3⟩ with
  | error diagnostic =>
      rw [parsed] at values
      cases values
  | ok document =>
      rw [parsed] at values
      have names : document.enumValues.map (·.name.text) = ["a"] := Option.some.inj values
      have declared : "a" ∈ document.enumValues.map (·.name.text) :=
        names ▸ List.mem_singleton_self "a"
      obtain ⟨definition, member, equal⟩ := List.mem_map.mp declared
      refine ⟨document, definition, rfl, member, equal, ?_⟩
      rw [← equal]
      exact (declared_names_read _ _).1 document parsed definition member _ _ rfl

/-- A word is declared as a value, and where a value is read it is something else. -/
theorem true_declared_not_read :
    (parse { body := "enum E\x7btrue\x7d" } ⟨false, 3⟩).toOption.map
      (·.enumValues.map (·.name.text)) =
        some ["true"] ∧
      ¬ ∃ note, parseValue { body := "true" } ⟨false, 3⟩ = .ok (.enum "true" note) := by
  refine ⟨by decide +kernel, ?_⟩
  rintro ⟨note, parsed⟩
  have parsed' : parseValue { body := "true" } ⟨false, 3⟩ = .ok _ := rfl
  rw [parsed'] at parsed
  cases parsed

end GraphQL
