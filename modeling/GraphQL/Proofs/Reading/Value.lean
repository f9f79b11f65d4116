import GraphQL.Proofs.Derivation.Node
import GraphQL.Proofs.Reading.Combinators

/-! How names, types, values and directives are read. -/

namespace GraphQL

variable {extentOf : Nat → Nat → Extent} {depth : Nat} {constness : Constness}

open Rule

/-- The nested parts are read a level deeper. -/
def ReadsNested (extentOf : Nat → Nat → Extent) (depth : Nat) : Prop :=
  ∀ shallower, depth = shallower + 1 → ∀ part : Nonterminal,
    ReadsFrom extentOf (fun _ => True) shallower (Grammar.production part)
      (part.phrase extentOf)
      part.profile

namespace Reads

def makeName (allowed : String → Bool) : Lexeme → Option (Extent → Name Extent)
  | .name text => if allowed text then some fun extent => ⟨text, extent⟩ else none
  | _ => none

theorem nameIf (allowed : String → Bool) (fault : Lexeme → GrammarFault)
    {signs : List Sign}
    (sample : String) (shows : ∀ text, allowed text = true → Shown signs (.name text))
    (sampled : allowed sample = true) (constness : Constness) :
    Reads extentOf depth (Rule.located (Rule.take (makeName allowed) fault))
      (fun depth place name after => allowed name.text = true ∧
        Phrase.node extentOf constness .name depth place name after)
      (.single signs (.name sample)) := by
  have shown : ∀ found build, makeName allowed found = some build →
      Shown signs found := by
    intro found build made
    cases found with
    | name text =>
        cases allow : allowed text with
        | true => exact shows text allow
        | false => simp [makeName, allow] at made
    | _ => cases made
  have made : makeName allowed (.name sample) = some fun extent => ⟨sample, extent⟩ :=
    if_pos sampled
  refine (located (take _ rfl shown made)).congr ?_
  rintro depth place ⟨text, location⟩ after
  simp only [Phrase.located_iff, Phrase.token, Phrase.node_iff, Name.derives_iff]
  constructor
  · rintro ⟨build, ⟨found, covers, made⟩, equal⟩
    cases found with
    | name found =>
        cases allow : allowed found with
        | true =>
            simp only [makeName, allow, if_true, Option.some.injEq] at made
            cases made
            cases equal
            exact ⟨allow, covers, rfl⟩
        | false => simp [makeName, allow] at made
    | _ => cases made
  · rintro ⟨allow, covers, rfl⟩
    exact ⟨_, ⟨_, covers, if_pos allow⟩, rfl⟩

theorem name (constness : Constness) :
    Reads extentOf depth Grammar.name (Phrase.node extentOf constness .name)
      (.single [.kind .name] (.name "a")) := by
  refine ((nameIf (fun _ => true) (.expected .name) "a" (fun _ _ => by
    simp [Lexeme.kind]) rfl
    constness).of_readAt_eq ?_).congr fun _ _ _ _ => by simp
  intro terms depth place _
  refine readAt_located_congr ?_
  rw [Rule.take, readAt_peek_current_bind, readAt_peek_current_bind]
  cases place.current <;> rfl

theorem namedType (constness : Constness) : Reads extentOf depth Grammar.namedType
    (Phrase.node extentOf constness .namedType) (.single [.kind .name] (.name "a")) := by
  refine (located ((name .variable).map NamedType.mk)).congr ?_
  rintro depth place ⟨name, location⟩ after
  rw [Phrase.node_iff, Node.derives_iff rfl]
  simp [Node.parts, Node.location, Part.name]

theorem variableReference (constness : Constness) :
    Reads extentOf depth Grammar.variableReference
      (Phrase.node extentOf constness .variable)
      ⟨false, [.mark .dollar], [], [], [.punctuator .dollar, .name "a"]⟩ := by
  refine (located ((mark .dollar).bind (fun _ => (name .variable).map Variable.mk) (by
    decide))).congr ?_
  rintro depth place ⟨name, location⟩ after
  rw [Phrase.node_iff, Node.derives_iff rfl]
  simp [Node.parts, Node.location, Variable.parts, Part.name]

def makeString : Lexeme → Option (Extent → StringValue Extent)
  | .string value => some fun extent => ⟨value, false, extent⟩
  | .blockString value => some fun extent => ⟨value, true, extent⟩
  | _ => none

theorem stringValue (constness : Constness) :
    Reads extentOf depth Grammar.stringValue (Phrase.node extentOf constness .description)
      (.single [.kind .string, .kind .blockString] (.string "")) := by
  have shows : ∀ found build, makeString found = some build →
      Shown [.kind .string, .kind .blockString] found := by
    intro found build made
    cases found <;> simp_all [makeString, Lexeme.kind]
  have taken : Reads extentOf depth (Rule.take makeString .unexpected) _
      (.single _ (.string "")) :=
    take (fun extent => ⟨"", false, extent⟩) rfl shows rfl
  refine (located (taken.of_readAt_eq ?_)).congr ?_
  · intro terms depth place _
    rw [Rule.take, readAt_peek_current_bind, readAt_peek_current_bind]
    cases place.current <;> rfl
  · rintro depth place ⟨value, isBlock, location⟩ after
    rw [Phrase.node_iff, Node.derives_iff rfl]
    simp only [Phrase.located_iff, Phrase.token, Node.parts, Node.location,
      Spells.token_iff, Spells.nil_iff, StringValue.spelling, Spelling.Fits]
    constructor
    · rintro ⟨build, ⟨found, covers, made⟩, equal⟩
      cases found <;> cases made <;> (cases equal; exact ⟨⟨_, _, covers, rfl, rfl⟩, rfl⟩)
    · rintro ⟨⟨_, _, covers, rfl, rfl⟩, rfl⟩
      cases isBlock <;> exact ⟨_, ⟨_, covers, rfl⟩, rfl⟩

/-! ## Nested parts -/

variable (below : ReadsNested extentOf depth)

include below

theorem nested (part : Nonterminal) :
    Reads extentOf depth (.nested part) (part.phrase extentOf).deeper part.profile where
  toDescribes := part.describes
  reads := .nested fun shallower equal => below shallower equal part

/-! ## Types -/

theorem listType : Reads extentOf depth
    (Rule.located do
      Rule.mark .leftBracket
      let inner ← Rule.nested .listElement
      Rule.mark .rightBracket
      return fun extent => TypeReference.list inner extent)
    (fun depth place type after => type.isList = true ∧
      Phrase.node extentOf .constant .type depth place type after)
    ⟨false, [.mark .leftBracket], [], [],
      [.punctuator .leftBracket, .name "a", .punctuator .rightBracket]⟩ := by
  have inner := (nested below .listElement).bind (fun inner =>
    (mark .rightBracket).map fun _ extent => TypeReference.list inner extent) (by decide)
  refine (located ((mark .leftBracket).bind (fun _ => inner) (by decide))).congr ?_
  intro depth place type after
  constructor
  · rintro ⟨_, ⟨_, _, opened, _, _, ⟨_, rfl, derives⟩, _, _, closed, rfl, rfl⟩, rfl⟩
    refine ⟨rfl, (Node.derives_iff_of_nested rfl).mpr ⟨_, rfl, ?_, rfl⟩⟩
    simp only [Phrase.mark_iff] at opened closed
    simp only [Node.parts, TypeReference.parts, Spells.mark_iff, Spells.child_iff,
      Spells.nil_iff]
    exact ⟨_, opened, _, derives, _, closed, rfl⟩
  · rintro ⟨isList, derives⟩
    cases type with
    | list inner location =>
        obtain ⟨shallower, rfl, spells, rfl⟩ :=
          (Node.derives_iff_of_nested rfl).mp derives
        simp only [Node.parts, TypeReference.parts, Spells.mark_iff, Spells.child_iff,
          Spells.nil_iff] at spells
        obtain ⟨_, opened, _, derives, _, closed, rfl⟩ := spells
        refine ⟨_, ⟨(), _, ?_, inner, _, ⟨shallower, rfl, derives⟩, (), _, ?_, rfl, rfl⟩,
          rfl⟩
        · exact Phrase.mark_iff.mpr opened
        · exact Phrase.mark_iff.mpr closed
    | _ => cases isList

theorem nullableType : Reads extentOf depth Grammar.nullableType
    (fun depth place type after => type.isNullable = true ∧
      Phrase.node extentOf .constant .type depth place type after)
    ⟨false, [.mark .leftBracket, .kind .name], [], [], [.name "a"]⟩ := by
  refine (choosingMark .leftBracket (listType below) rfl (fun _ => id)
    ((namedType .constant).map TypeReference.named) rfl).congr ?_
  intro depth place type after
  have named :
      ∀ {type}, Phrase.node extentOf .constant .type depth place (.named type) after ↔
      Phrase.node extentOf .constant .namedType depth place type after := by
    intro type
    rw [Phrase.node_iff, Phrase.node_iff, Node.derives_iff rfl, Node.derives_iff rfl]
    rfl
  constructor
  · rintro (⟨isList, derives⟩ | ⟨type, _, derives, rfl, rfl⟩)
    · cases type with
      | list inner location => exact ⟨rfl, derives⟩
      | _ => cases isList
    · exact ⟨rfl, named.mpr derives⟩
  · rintro ⟨isNullable, derives⟩
    cases type with
    | named type => exact .inr ⟨type, _, named.mp derives, rfl, rfl⟩
    | list inner location => exact .inl ⟨rfl, derives⟩
    | nonNull inner location => cases isNullable

theorem typeReference : Reads extentOf depth Grammar.typeReference
    (Phrase.node extentOf .constant .type) Nonterminal.listElement.profile := by
  have marked : ∀ type : TypeReference Extent,
      Reads extentOf depth _ _ (.choose [.mark .bang] [.mark .bang] .empty .empty) :=
        fun type =>
    takingMark .bang (.pure fun extent => TypeReference.nonNull type extent) (by decide)
      (.pure fun _ => type) rfl
  refine (located ((nullableType below).bind marked (by decide))).congr ?_
  intro depth place type after
  constructor
  · rintro ⟨_, ⟨inner, _, ⟨isNullable, derives⟩, ⟨_, _, bang, rfl, rfl⟩ | ⟨rfl, rfl⟩⟩,
      rfl⟩
    · refine (Node.derives_iff rfl).mpr ⟨?_, rfl⟩
      simp only [Phrase.mark_iff] at bang
      simp only [Node.parts, TypeReference.parts, Spells.provided_iff, Spells.child_iff,
        Spells.mark_iff, Spells.nil_iff]
      exact ⟨isNullable, _, derives, _, bang, rfl⟩
    · exact derives
  · intro derives
    cases type with
    | nonNull inner location =>
        obtain ⟨spells, rfl⟩ := (Node.derives_iff rfl).mp derives
        simp only [Node.parts, TypeReference.parts, Spells.provided_iff, Spells.child_iff,
          Spells.mark_iff, Spells.nil_iff] at spells
        obtain ⟨isNullable, _, derives, _, bang, rfl⟩ := spells
        exact ⟨_, ⟨inner, _, ⟨isNullable, derives⟩,
          .inl ⟨(), _, Phrase.mark_iff.mpr bang, rfl, rfl⟩⟩, rfl⟩
    | _ => exact ⟨_, ⟨_, _, ⟨rfl, derives⟩, .inr ⟨rfl, rfl⟩⟩, rfl⟩

end Reads

/-! ## Values -/

/-- What the first token of a value says -/
def Value.Begins : Value Extent → Lexeme → Prop
  | .boolean value _, found => found = .name (if value then "true" else "false")
  | .enum name _, found => found = .name name ∧ name ∉ ["true", "false", "null"]
  | .float value _, found => (Spelling.float value).Fits found
  | .int value _, found => (Spelling.integer value).Fits found
  | .list _ _, found => found = .punctuator .leftBracket
  | .null _, found => found = .name "null"
  | .object _ _, found => found = .punctuator .leftBrace
  | .string literal, found => literal.spelling.Fits found
  | .variable _, found => found = .punctuator .dollar

theorem Value.begins {value : Value Extent} {place after : Place}
    (derives : (Node.value value).Derives extentOf depth constness place after) :
    value.Begins place.current ∧ place.ordinal < after.ordinal := by
  obtain ⟨inner, _, spells, _⟩ := derives
  cases value <;> simp only [Node.parts, Value.parts, Variable.parts, Part.word,
    Part.mark, List.cons_append, Spells.token_iff, Spells.provided_iff] at spells
  case «variable» =>
    obtain ⟨_, _, _, covers, fits, rest⟩ := spells
    obtain ⟨current, lt⟩ := rest.starts covers
    exact ⟨current.trans fits, lt⟩
  case enum =>
    obtain ⟨other, _, _, covers, fits, rest⟩ := spells
    obtain ⟨current, lt⟩ := rest.starts covers
    exact ⟨⟨current.trans fits, of_decide_eq_true other⟩, lt⟩
  all_goals
    obtain ⟨_, _, covers, fits, rest⟩ := spells
    obtain ⟨current, lt⟩ := rest.starts covers
    rw [← current] at fits
    exact ⟨fits, lt⟩

theorem Value.begins_with {value : Value Extent} {place after : Place} {found : Lexeme}
    (derives : (Node.value value).Derives extentOf depth constness place after)
    (current : place.current = found) : value.Begins found :=
  current ▸ (Value.begins derives).1

theorem Value.of_begins_mark {value : Value Extent} {mark : Punctuator}
    (begins : value.Begins (.punctuator mark)) :
    value.isList = true ∧ mark = .leftBracket ∨
      value.isObject = true ∧ mark = .leftBrace ∨
      (∃ named, value = .variable named) ∧ mark = .dollar := by
  cases value with
  | list =>
      cases begins
      exact .inl ⟨rfl, rfl⟩
  | object =>
      cases begins
      exact .inr (.inl ⟨rfl, rfl⟩)
  | «variable» named =>
      cases begins
      exact .inr (.inr ⟨⟨named, rfl⟩, rfl⟩)
  | string literal =>
      obtain ⟨text, isBlock, _⟩ := literal
      cases isBlock <;> cases begins
  | enum => cases begins.1
  | int =>
      obtain ⟨_, equal, _⟩ := begins
      cases equal
  | float =>
      obtain ⟨_, equal, _⟩ := begins
      cases equal
  | _ => cases begins

theorem Value.of_begins_string {value : Value Extent} {text : String} {isBlock : Bool}
    (begins : value.Begins (if isBlock then .blockString text else .string text)) :
    ∃ literal, value = .string literal := by
  cases value with
  | string literal => exact ⟨literal, rfl⟩
  | enum =>
      obtain ⟨equal, _⟩ := begins
      cases isBlock <;> cases equal
  | int =>
      obtain ⟨_, equal, _⟩ := begins
      cases isBlock <;> cases equal
  | float =>
      obtain ⟨_, equal, _⟩ := begins
      cases isBlock <;> cases equal
  | _ => cases isBlock <;> cases begins

theorem Value.of_begins_float {value : Value Extent} {literal : String}
    (begins : value.Begins (.float literal)) :
    Decimal.isLiteral literal.toList = true ∧
      value = .float (.ofLiteral literal.toList) value.location := by
  cases value with
  | string literal =>
      obtain ⟨text, isBlock, _⟩ := literal
      cases isBlock <;> cases begins
  | enum => cases begins.1
  | int =>
      obtain ⟨_, equal, _⟩ := begins
      cases equal
  | float =>
      obtain ⟨_, equal, nearest⟩ := begins
      cases equal
      obtain ⟨isLiteral, rfl⟩ := Binary64.isNearest_iff.mp nearest
      exact ⟨isLiteral, rfl⟩
  | _ => cases begins

def Value.isPlain : Value Extent → Bool
  | .boolean _ _ | .enum _ _ | .float _ _ | .int _ _ | .null _ | .string _ => true
  | .list _ _ | .object _ _ | .variable _ => false

theorem Value.derives_iff_of_isPlain {value : Value Extent} {place after : Place}
    (plain : value.isPlain = true) :
    (Node.value value).Derives extentOf depth constness place after ↔
      (∃ found, place.Covers [found] after ∧ value.Begins found) ∧
        value.location = extentOf place.ordinal after.ordinal := by
  cases value with
  | list | object | «variable» => cases plain
  | enum name location =>
      rw [Node.derives_iff rfl]
      simp [Node.parts, Node.location, Value.parts, Value.Begins, Value.location]
      grind
  | _ =>
      rw [Node.derives_iff rfl]
      simp [Node.parts, Node.location, Value.parts, Value.Begins, Value.location]

/-- What can be told of a value by its first token -/
def Profile.value : Profile where
  nullable := false
  first := [.mark .leftBracket, .mark .leftBrace, .mark .dollar,
    .kind .integer, .kind .float, .kind .string, .kind .blockString, .kind .name]
  tails := []
  barred := []
  sample := [.name "null"]

theorem Value.shown_of_begins {value : Value Extent} {found : Lexeme}
    (begins : value.Begins found) :
    Shown Profile.value.first found := by
  cases value <;> simp only [Begins] at begins
  case string literal =>
    obtain ⟨text, isBlock, _⟩ := literal
    cases isBlock <;> (cases begins; simp [Profile.value, Lexeme.kind])
  case float =>
    obtain ⟨_, rfl, _⟩ := begins
    simp [Profile.value, Lexeme.kind]
  case int =>
    obtain ⟨_, rfl, _⟩ := begins
    simp [Profile.value, Lexeme.kind]
  case enum =>
    obtain ⟨rfl, _⟩ := begins
    simp [Profile.value, Lexeme.kind]
  all_goals simp [Profile.value, begins, Lexeme.kind]

theorem Value.describes :
    Profile.value.Describes (Phrase.node extentOf constness Node.value) where
  starts derives := .inr ((Value.begins derives).imp_left Value.shown_of_begins)
  sample {_ ahead} ordinal _ _ := by
    refine ⟨.null (extentOf ordinal (ordinal + 1)), ?_⟩
    refine (Value.derives_iff_of_isPlain rfl).mpr ⟨⟨.name "null", ⟨rfl, rfl⟩, rfl⟩, rfl⟩

theorem isNested_of_isList {value : Value Extent} (isList : value.isList = true) :
    (Node.value value).isNested = true := by
  cases value <;> first | rfl | cases isList

theorem isNested_of_isObject {value : Value Extent} (isObject : value.isObject = true) :
    (Node.value value).isNested = true := by
  cases value <;> first | rfl | cases isObject

theorem Value.plain_valueOfName (text : String) (extent : Extent) :
    (Grammar.valueOfName text extent).isPlain = true ∧
      (Grammar.valueOfName text extent).Begins (.name text) ∧
        (Grammar.valueOfName text extent).location = extent := by
  unfold Grammar.valueOfName
  repeat' split
  all_goals simp_all [Value.isPlain, Value.Begins, Value.location]

namespace ReadsFrom

theorem plainValue {found : Lexeme} (build : Extent → Value Extent)
    (more : found ≠ .endOfFile)
    (plain : ∀ extent, (build extent).isPlain = true ∧ (build extent).Begins found ∧
      (build extent).location = extent)
    (only : ∀ {value : Value Extent}, value.Begins found →
      value.isPlain = true ∧ value = build value.location) :
    ReadsFrom extentOf (fun place => True ∧ place.current = found) depth
      (Grammar.plainValue build)
      (Phrase.node extentOf constness Node.value) Profile.value := by
  have taken :
      ReadsFrom extentOf (fun place => True ∧ place.current = found) depth .advance
      (Phrase.token fun other _ => other = found) (.single [] default) := by
    refine .advance ?_
    rintro place ⟨_, rfl⟩
    exact ⟨more, rfl⟩
  refine ((taken.map fun _ => build).located).widen ?_ ?_ (by simp [Profile.single])
    (by simp [Profile.single])
  · rintro depth place value after ⟨_, ⟨_, _, ⟨_, covers, rfl⟩, rfl, rfl⟩, rfl⟩
    obtain ⟨plain, begins, location⟩ := plain (extentOf place.ordinal after.ordinal)
    exact (Value.derives_iff_of_isPlain plain).mpr ⟨⟨_, covers, begins⟩, location⟩
  · rintro place value after ⟨_, rfl⟩ _ derives
    obtain ⟨plain, equal⟩ := only (Value.begins derives).1
    obtain ⟨⟨found, covers, _⟩, location⟩ :=
      (Value.derives_iff_of_isPlain plain).mp derives
    refine ⟨build, ⟨(), after, ⟨found, covers, covers.current.symm⟩, rfl, rfl⟩, ?_⟩
    rw [← location]
    exact equal

theorem numberValue {found : Lexeme} {fits : Bool} (build : Extent → Value Extent)
    (fault : GrammarFault) (more : found ≠ .endOfFile)
    (plain : fits = true → ∀ extent, (build extent).isPlain = true ∧
      (build extent).Begins found ∧
      (build extent).location = extent)
    (only : ∀ {value : Value Extent}, value.Begins found →
      fits = true ∧ value = build value.location) :
    ReadsFrom extentOf (fun place => True ∧ place.current = found) depth
      (Grammar.numberValue fits build fault)
        (Phrase.node extentOf constness Node.value) Profile.value := by
  cases number : fits with
  | true =>
      refine plainValue build more (plain number) fun begins => ?_
      have ⟨_, equal⟩ := only begins
      rw [equal]
      exact ⟨(plain number _).1, by rw [(plain number _).2.2]⟩
  | false =>
      refine .never (fun current => True ∧ current = found) ?_ ?_
      · rintro limit bound depth place closed ⟨_, current⟩
        exact ⟨fault, Rule.readAt_located_eq_error.mpr
          (Rule.readAt_advance_refuse closed (current ▸ more) _)⟩
      · rintro place value after ⟨_, current⟩ _ derives
        have ⟨isNumber, _⟩ := only (Value.begins_with derives current)
        rw [number] at isNumber
        cases isNumber

theorem integerValue (literal : String) :
    ReadsFrom extentOf (fun place => True ∧ place.current = .integer literal) depth
      (Grammar.integerValue literal)
        (Phrase.node extentOf constness Node.value) Profile.value := by
  refine numberValue _ _ nofun (fun fits _ => ?_) fun {value} begins => ?_
  · obtain ⟨isInteger, small⟩ := Bool.and_eq_true_iff.mp fits
    exact ⟨rfl, ⟨_, rfl, denotes_iff.mpr ⟨isInteger, rfl⟩, isInt32_eq_true.mp small⟩, rfl⟩
  cases value with
  | int value location =>
      obtain ⟨_, equal, denotes, small⟩ := begins
      cases equal
      obtain ⟨isInteger, rfl⟩ := denotes_iff.mp denotes
      exact ⟨Bool.and_eq_true_iff.mpr ⟨isInteger, isInt32_eq_true.mpr small⟩, rfl⟩
  | string literal =>
      obtain ⟨text, isBlock, _⟩ := literal
      cases isBlock <;> cases begins
  | enum => cases begins.1
  | float =>
      obtain ⟨_, equal, _⟩ := begins
      cases equal
  | _ => cases begins

theorem floatValue (literal : String) :
    ReadsFrom extentOf (fun place => True ∧ place.current = .float literal) depth
      (Grammar.floatValue literal)
        (Phrase.node extentOf constness Node.value) Profile.value :=
  numberValue _ _ nofun (fun isLiteral _ =>
      ⟨rfl, ⟨_, rfl, Binary64.isNearest_iff.mpr ⟨isLiteral, rfl⟩⟩, rfl⟩)
    Value.of_begins_float

theorem nameValue (text : String) :
    ReadsFrom extentOf (fun place => True ∧ place.current = .name text) depth
      (Grammar.plainValue (Grammar.valueOfName text))
        (Phrase.node extentOf constness Node.value)
      Profile.value := by
  refine plainValue _ nofun (Value.plain_valueOfName text) fun {value} begins => ?_
  cases value with
  | boolean value =>
      cases value <;> (cases begins; exact ⟨rfl, rfl⟩)
  | null =>
      cases begins
      exact ⟨rfl, rfl⟩
  | enum name location =>
      obtain ⟨equal, other⟩ := begins
      cases equal
      simp only [List.mem_cons, List.not_mem_nil, or_false, not_or] at other
      exact ⟨rfl, by simp [Grammar.valueOfName, other, Value.location]⟩
  | string literal =>
      obtain ⟨text, isBlock, _⟩ := literal
      cases isBlock <;> cases begins
  | int =>
      obtain ⟨_, equal, _⟩ := begins
      cases equal
  | float =>
      obtain ⟨_, equal, _⟩ := begins
      cases equal
  | _ => cases begins

theorem stringValue (text : String) (isBlock : Bool) :
    ReadsFrom extentOf
      (fun place => True ∧ place.current = if isBlock then .blockString text
        else .string text) depth
      (do return Value.string (← Grammar.stringValue))
        (Phrase.node extentOf constness Node.value)
      Profile.value := by
  have reads : Reads extentOf depth Grammar.stringValue _ _ := .stringValue constness
  refine ((reads.map Value.string).reads.weaken fun _ _ => trivial).widen ?_ ?_
    (by simp [Profile.single])
    (by simp [Profile.single])
  · rintro depth place value after ⟨literal, _, derives, rfl, rfl⟩
    rw [Phrase.node_iff, Node.derives_iff rfl] at derives ⊢
    exact derives
  · rintro place value after ⟨_, current⟩ _ derives
    obtain ⟨literal, rfl⟩ := Value.of_begins_string (Value.begins_with derives current)
    refine ⟨literal, after, ?_, rfl, rfl⟩
    rw [Phrase.node_iff, Node.derives_iff rfl] at derives ⊢
    exact derives

theorem refuseVariable :
    ReadsFrom extentOf (fun place => True ∧ place.current = .punctuator .dollar) depth
      Grammar.refuseVariable
        (Phrase.node extentOf .constant Node.value) Profile.value := by
  refine .never (fun current => True ∧ current = .punctuator .dollar) ?_ ?_
  · rintro limit bound depth place closed ⟨_, current⟩
    obtain ⟨next, rest, ahead⟩ := closed.next (by simp [current])
    rw [Grammar.refuseVariable, Rule.readAt_bind_of_ok (Rule.readAt_peek_ahead ahead)]
    cases next <;> exact ⟨_, rfl⟩
  · rintro place value after ⟨_, current⟩ _ derives
    obtain ⟨_, mark⟩ | ⟨_, mark⟩ | ⟨⟨named, rfl⟩, _⟩ :=
      Value.of_begins_mark (Value.begins_with derives current)
    · cases mark
    · cases mark
    · rw [Phrase.node_iff, Node.derives_iff rfl] at derives
      simp [Node.parts, Value.parts] at derives

theorem refuseValue {found : Lexeme} (other : ¬ Shown Profile.value.first found) :
    ReadsFrom extentOf (fun place => True ∧ place.current = found) depth
      (Rule.refuse .current (.unexpected found))
        (Phrase.node extentOf constness Node.value)
      Profile.value := by
  refine .never (fun current => True ∧ current = found) (fun _ _ _ _ _ _ => ⟨_, rfl⟩) ?_
  rintro place value after ⟨_, current⟩ _ derives
  exact other (Value.shown_of_begins (Value.begins_with derives current))

theorem nestedValue {rule : Rule (Value Extent)} {profile : Profile}
    {kind : Value Extent → Bool} {mark : Punctuator}
    (reads : Reads extentOf depth rule
      (Phrase.deeper fun depth place value after =>
        kind value = true ∧
          Phrase.body extentOf constness Node.value depth place value after) profile)
    (nested : ∀ {value : Value Extent}, kind value = true →
      (Node.value value).isNested = true)
    (only : ∀ {value : Value Extent}, value.Begins (.punctuator mark) → kind value = true)
    (tails : profile.tails ⊆ Profile.value.tails)
    (barred : profile.barred ⊆ Profile.value.barred) :
    ReadsFrom extentOf (fun place => True ∧ place.current = .punctuator mark) depth rule
      (Phrase.node extentOf constness Node.value) Profile.value := by
  refine (reads.reads.weaken fun _ _ => trivial).widen ?_ ?_ tails barred
  · rintro depth place value after ⟨shallower, rfl, isKind, body⟩
    exact (Node.derives_iff_of_nested (nested isKind)).mpr ⟨_, rfl, body⟩
  · rintro place value after ⟨_, current⟩ _ derives
    have isKind := only (Value.begins_with derives current)
    obtain ⟨_, rfl, body⟩ := (Node.derives_iff_of_nested (nested isKind)).mp derives
    exact ⟨_, rfl, isKind, body⟩

theorem variableValue :
    ReadsFrom extentOf (fun place => True ∧ place.current = .punctuator .dollar) depth
      (Value.variable <$> Grammar.variableReference)
        (Phrase.node extentOf .variable Node.value)
      Profile.value := by
  have reads : Reads extentOf depth Grammar.variableReference _ _ :=
    .variableReference .variable
  have derives_iff : ∀ {depth place after} {named : Variable Extent},
      (Node.value (.variable named)).Derives extentOf depth .variable place after ↔
        (Node.variable named).Derives extentOf depth .variable place after := by
    intro depth place after named
    rw [Node.derives_iff rfl, Node.derives_iff rfl]
    simp [Node.parts, Value.parts, Node.location, Value.location]
  refine ((reads.map Value.variable).reads.weaken fun _ _ => trivial).widen ?_ ?_
    (List.Subset.refl _) (List.Subset.refl _)
  · rintro depth place value after ⟨named, _, derives, rfl, rfl⟩
    exact derives_iff.mpr derives
  · rintro place value after ⟨_, current⟩ _ derives
    obtain ⟨_, mark⟩ | ⟨_, mark⟩ | ⟨⟨named, rfl⟩, _⟩ :=
      Value.of_begins_mark (Value.begins_with derives current)
    · cases mark
    · cases mark
    · exact ⟨named, _, derives_iff.mp derives, rfl, rfl⟩

end ReadsFrom

theorem Reads.value (below : ReadsNested extentOf depth) (constness : Constness) :
    Reads extentOf depth (Grammar.value constness)
      (Phrase.node extentOf constness Node.value)
      .value where
  toDescribes := Value.describes
  reads := by
    refine .peek fun found => ?_
    cases found with
    | punctuator mark =>
        cases mark with
        | leftBracket =>
            exact .nestedValue (Reads.nested below (.list constness)) isNested_of_isList
              (fun begins => by simpa using Value.of_begins_mark begins)
                (List.Subset.refl _)
              (List.Subset.refl _)
        | leftBrace =>
            exact .nestedValue
              (Reads.nested below (.object constness)) isNested_of_isObject
              (fun begins => by simpa using Value.of_begins_mark begins)
                (List.Subset.refl _)
              (List.Subset.refl _)
        | dollar =>
            cases constness with
            | constant => exact .refuseVariable
            | «variable» => exact .variableValue
        | _ => exact .refuseValue (by simp [Profile.value, Lexeme.kind])
    | integer literal => exact .integerValue literal
    | float literal => exact .floatValue literal
    | name text => exact .nameValue text
    | string text => exact .stringValue text false
    | blockString text => exact .stringValue text true
    | _ => exact .refuseValue (by simp [Profile.value, Lexeme.kind])

namespace Reads

theorem listValue (below : ReadsNested extentOf depth) (constness : Constness) :
    Reads extentOf depth (Grammar.listValue constness)
      (Nonterminal.phrase extentOf (.list constness))
        (Nonterminal.list constness).profile := by
  have items :=
    any .leftBracket .rightBracket (value below constness) (.value constness) (by decide)
  refine (located (items.map fun items extent => Value.list items extent)).congr ?_
  intro depth place value after
  simp only [Nonterminal.phrase, Phrase.body_iff]
  constructor
  · rintro ⟨_, ⟨items, _, holds, rfl, rfl⟩, rfl⟩
    exact ⟨rfl, (Spells.enclosed_iff _).mpr holds, rfl⟩
  · rintro ⟨isList, spells, located⟩
    cases value with
    | list items location =>
        cases located
        exact ⟨_, ⟨items, _, (Spells.enclosed_iff _).mp spells, rfl, rfl⟩, rfl⟩
    | _ => cases isList

theorem objectMember (below : ReadsNested extentOf depth) (constness : Constness) :
    Reads extentOf depth (Grammar.objectMember constness)
      (Phrase.node extentOf constness Node.member)
      ⟨false, [.kind .name], [], [], [.name "a", .punctuator .colon, .name "null"]⟩ := by
  have colon := fun name => (mark .colon).bind
    (fun _ => (value below constness).map fun value extent =>
      ObjectMember.mk name value extent) (by decide)
  refine (located ((name .variable).bind colon (by decide))).congr ?_
  rintro depth place ⟨name, value, location⟩ after
  rw [Phrase.node_iff, Node.derives_iff rfl]
  simp [Node.parts, ObjectMember.parts, Node.location, ObjectMember.location, Part.name]

theorem objectValue (below : ReadsNested extentOf depth) (constness : Constness) :
    Reads extentOf depth (Grammar.objectValue constness)
      (Nonterminal.phrase extentOf (.object constness))
        (Nonterminal.object constness).profile := by
  have members := any .leftBrace .rightBrace (objectMember below constness)
    (.objectMember _) (by decide)
  refine (located (members.map fun members extent => Value.object members extent)).congr
    ?_
  intro depth place value after
  simp only [Nonterminal.phrase, Phrase.body_iff]
  constructor
  · rintro ⟨_, ⟨members, _, holds, rfl, rfl⟩, rfl⟩
    exact ⟨rfl, (Spells.enclosed_iff _).mpr holds, rfl⟩
  · rintro ⟨isObject, spells, located⟩
    cases value with
    | object members location =>
        cases located
        exact ⟨_, ⟨members, _, (Spells.enclosed_iff _).mp spells, rfl, rfl⟩, rfl⟩
    | _ => cases isObject

theorem defaultValue (below : ReadsNested extentOf depth) :
    Reads extentOf depth Grammar.defaultValue
      (Phrase.written extentOf Part.defaultValue)
      ⟨true, [.mark .equals], [.mark .equals], [], []⟩ := by
  have reads := takingMark .equals ((value below .constant).map some) (by decide)
    (.pure none) rfl
  refine (reads.of_readAt_eq fun _ => rfl).congr ?_
  intro depth place value after
  cases value <;> simp [Part.defaultValue]

/-! ## Arguments and directives -/

theorem argument (below : ReadsNested extentOf depth) (constness : Constness) :
    Reads extentOf depth (Grammar.argument constness)
      (Phrase.node extentOf constness Node.argument)
      ⟨false, [.kind .name], [], [], [.name "a", .punctuator .colon, .name "null"]⟩ := by
  have colon := fun name => (mark .colon).bind
    (fun _ => (value below constness).map fun value extent =>
      Argument.mk name value extent) (by decide)
  refine (located ((name .variable).bind colon (by decide))).congr ?_
  rintro depth place ⟨name, value, location⟩ after
  rw [Phrase.node_iff, Node.derives_iff rfl]
  simp [Node.parts, Argument.parts, Node.location, Part.name]

theorem arguments (below : ReadsNested extentOf depth) (constness : Constness) :
    Reads extentOf depth (Grammar.arguments constness)
      (Phrase.written extentOf (Part.arguments constness))
      ⟨true, [.mark .leftParen], [.mark .leftParen], [], []⟩ :=
  (optionalMany .leftParen .rightParen (argument below constness) (.argument _)
    (by decide)).congr
    fun _ _ _ _ => Spells.inParens_iff.symm

theorem directive (below : ReadsNested extentOf depth) (constness : Constness) :
    Reads extentOf depth (Grammar.directive constness)
      (Phrase.node extentOf constness Node.directive)
      ⟨false, [.mark .atSign], [.mark .leftParen], [],
        [.punctuator .atSign, .name "a"]⟩ := by
  have named := (name .variable).bind
    (fun name => (arguments below constness).map fun arguments extent =>
      Directive.mk name arguments extent) (by decide)
  refine (located ((mark .atSign).bind (fun _ => named) (by decide))).congr ?_
  rintro depth place ⟨name, arguments, location⟩ after
  rw [Phrase.node_iff, Node.derives_iff rfl]
  simp [Node.parts, Directive.parts, Node.location, Part.name]

theorem directives (below : ReadsNested extentOf depth) (constness : Constness) :
    Reads extentOf depth (Grammar.directives constness)
      (Phrase.written extentOf (Part.directives constness))
      ⟨true, [.mark .atSign], [.mark .atSign, .mark .leftParen], [], []⟩ :=
  ((directive below constness).repeatWhile (.item (.directive _)) rfl
    (fun found => by simp) (fun _ => id) rfl).congr
    fun _ _ _ _ => Spells.children_iff.symm

end Reads

end GraphQL
