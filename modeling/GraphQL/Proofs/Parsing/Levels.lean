import GraphQL.Proofs.Parsing.Brackets

/-! Levels.

A selection set, a list, an object and what a list type is a list of lie one level deeper
than what they stand in. -/

namespace GraphQL

open Rule

variable {source : Source} {limit depth : Nat} {lexer after : Lexer}

/-- Parts that are read on the next level leave open what was open before them. -/
def Source.Neutral (source : Source) (limit depth : Nat) : Prop :=
  ∀ (part : Nonterminal) (lexer after : Lexer) (value : part.Tree),
    part.BeginsAt source lexer →
    (Rule.nested part).runAt limit depth lexer = (.ok value, after) →
    source.unclosedBefore after.current = source.unclosedBefore lexer.current

namespace Nonterminal

variable {part : Nonterminal}

theorem beginsAt_current (isOn : lexer.IsOn source) (other : part ≠ .listElement)
    (opening : part ≠ .selectionSet → lexer.current.lexeme = .punctuator part.opening) :
    part.BeginsAt source lexer := by
  have first : part.firstToken lexer = lexer.current := by
    cases part <;> first | rfl | exact (other rfl).elim
  exact ⟨isOn, first ▸ isOn.getElem?_ordinal.1, fun same => (other same).elim,
    first ▸ opening⟩

end Nonterminal

section

variable {opened : List Token} {inside : List Token → Prop}

theorem Rule.Tracks.only {α : Type} {value : α} (isOn : lexer.IsOn source)
    (other : lexer.current.lexeme.isBracket = false) :
    (do Rule.advance; return value : Rule α).Tracks source limit depth lexer
      (source.unclosedBefore lexer.current) inside :=
  (advance_other isOn other).bind isOn fun _ middle _ => Balances.pure value middle

namespace Rule.Balances

/-! ## Names and types -/

theorem name : Grammar.name.Balances source limit depth opened inside := by
  rintro lexer isOn rfl
  refine .located (.peek_bind ?_)
  split
  next said => exact .only isOn (congrArg Lexeme.isBracket said)
  next => exact .refuse fun _ => nofun

theorem namedType : Grammar.namedType.Balances source limit depth opened inside :=
  located <| name.bind fun _ => pure _

theorem stringValue : Grammar.stringValue.Balances source limit depth opened inside := by
  rintro lexer isOn rfl
  refine .located (.peek_bind ?_)
  split
  next said => exact .only isOn (congrArg Lexeme.isBracket said)
  next said => exact .only isOn (congrArg Lexeme.isBracket said)
  next => exact .refuse fun _ => nofun

theorem variableReference :
    Grammar.variableReference.Balances source limit depth opened inside :=
  located <| (mark rfl).bind fun _ => name.bind fun _ => pure _

theorem operationType :
    Grammar.operationType.Balances source limit depth opened inside := by
  rintro lexer isOn rfl
  refine .peek_bind ?_
  split
  next said =>
    refine (Tracks.advance_other isOn (congrArg Lexeme.isBracket said)).bind isOn
      fun _ middle _ => ?_
    split
    next => exact pure _ middle
    next =>
      split
      · exact fun _ _ => .refuse fun _ => nofun
      · exact fun _ _ => .refuse fun _ => nofun
  next => exact .refuse fun _ => nofun

/-- The bracket of a list type is taken before it is seen how deep it lies. -/
theorem beginsAt_listElement {middle : Lexer} (isOn : lexer.IsOn source)
    (marked : (Rule.mark .leftBracket).runAt limit depth lexer = (.ok (), middle)) :
    Nonterminal.listElement.BeginsAt source middle ∧ middle.last = lexer.current := by
  obtain ⟨isBracket, token, moved⟩ := runAt_mark_eq_ok marked
  obtain ⟨isOn', current, ordinal, _⟩ :=
    isOn.advance (by rw [Token.isEndOfFile, isBracket]; rfl) moved
  have last : middle.last = lexer.current := by
    obtain ⟨tokens, ending, ahead, yields, moves⟩ := isOn
    exact moves.last_advance yields moved
  refine ⟨⟨isOn', ?_, fun _ => ?_, fun _ => ?_⟩, last⟩
  · change (significant source.scanned)[middle.last.ordinal]? = some middle.last
    rw [last, isOn.getElem?_ordinal.1]
  · rw [current, last, ordinal]
  · change middle.last.lexeme = _
    rw [last]
    exact isBracket

section

variable (neutral : source.Neutral limit depth) (here : inside opened)
include neutral here

theorem nullableType :
    Grammar.nullableType.Balances source limit depth opened inside := by
  rintro lexer isOn rfl
  refine Tracks.bind isOn (atMark .leftBracket lexer isOn rfl)
    fun there _ looked _ _ => ?_
  cases looked
  split
  · refine .located
      ((Tracks.mark .leftBracket isOn).bind isOn fun _ middle marked isOn' same => ?_)
    obtain ⟨begins, last⟩ := beginsAt_listElement isOn marked
    have inner : (Rule.nested .listElement).Tracks source limit depth middle
        (source.unclosedBefore middle.current) (· = source.unclosedBefore middle.last) :=
      .nested begins fun value after read => neutral _ _ _ value begins read
    refine (inner.mono fun more equal => ?_).bind isOn'
      fun element after _ isOn'' same' => ?_
    · rw [equal, last]
      exact here
    · refine (Tracks.mark .rightBracket isOn'').bind isOn''
        fun _ last marked' _ same'' => ?_
      rw [same', same, Punctuator.closedBy_brackets _ _ _ (runAt_mark_eq_ok marked).1
        (runAt_mark_eq_ok marked').1] at same''
      rw [← same'']
      exact .pure
  · exact namedType.map _ isOn rfl

theorem typeReference :
    Grammar.typeReference.Balances source limit depth opened inside := by
  refine located ((nullableType neutral here).bind fun type =>
    (optionalMark rfl).bind fun there => ?_)
  split
  · exact pure _
  · exact pure _

/-! ## Values -/

theorem nested_current {part : Nonterminal} (isOn : lexer.IsOn source)
    (same : source.unclosedBefore lexer.current = opened)
    (other : part ≠ .listElement)
    (opening : part ≠ .selectionSet → lexer.current.lexeme = .punctuator part.opening) :
    (Rule.nested part).Tracks source limit depth lexer opened inside := by
  have begins : part.BeginsAt source lexer :=
    Nonterminal.beginsAt_current isOn other opening
  refine same ▸ (Tracks.nested begins fun value after read =>
    neutral _ _ _ value begins read).mono fun more equal => ?_
  cases part <;> first | exact equal ▸ same ▸ here | exact (other rfl).elim

omit neutral here in
theorem numberValue {fits : Bool} {build : Extent → Value Extent} {fault : GrammarFault}
    (isOn : lexer.IsOn source)
    (other : lexer.current.lexeme.isBracket = false) (misfit : fault.IsMisfit) :
    (Grammar.numberValue fits build fault).Tracks source limit depth lexer
      (source.unclosedBefore lexer.current) inside := by
  refine .located
    ((Tracks.advance_other isOn other).bind isOn fun _ middle _ isOn same => ?_)
  split
  · exact pure _ middle isOn same
  · exact .refuse misfit

theorem value (constness : Constness) :
    (Grammar.value constness).Balances source limit depth opened inside := by
  rintro lexer isOn rfl
  refine .peek_bind ?_
  split
  next said => exact nested_current neutral here isOn rfl nofun fun _ => said
  next said => exact nested_current neutral here isOn rfl nofun fun _ => said
  next =>
    split
    next =>
      refine (peek .ahead).bind (fun found => ?_) lexer isOn rfl
      split
      · exact refuse fun _ => nofun
      · exact refuse fun _ => nofun
    next => exact variableReference.map lexer isOn rfl
  next said => exact numberValue isOn (congrArg Lexeme.isBracket said) fun _ => nofun
  next said => exact numberValue isOn (congrArg Lexeme.isBracket said) fun _ => nofun
  next => exact stringValue.map lexer isOn rfl
  next => exact stringValue.map lexer isOn rfl
  next said => exact .located (.only isOn (congrArg Lexeme.isBracket said))
  next => exact .refuse fun _ => nofun

theorem objectMember (constness : Constness) :
    (Grammar.objectMember constness).Balances source limit depth opened inside :=
  located <| name.bind fun _ => (mark rfl).bind fun _ =>
    (value neutral here constness).bind fun _ => pure _

theorem defaultValue (constness : Constness) :
    (Grammar.defaultValue constness).Balances source limit depth opened inside :=
  (optionalMark rfl).bind fun there => (value neutral here constness).optional there

/-! ## Arguments and directives -/

omit neutral here in
theorem optionalMany_parens {α : Type} {item : Rule α}
    (balances : item.Balances source limit depth opened inside) :
    (Rule.optionalMany .leftParen item .rightParen).Balances source limit depth
      opened inside := by
  rintro lexer isOn rfl
  refine .optionalMany Punctuator.closedBy_parens isOn fun isParen => ?_
  rw [Token.unclosed_of_not_isBracket (congrArg Lexeme.isBracket isParen)]
  exact balances

theorem arguments (constness : Constness) :
    (Grammar.arguments constness).Balances source limit depth opened inside :=
  optionalMany_parens <| located <| name.bind fun _ => (mark rfl).bind fun _ =>
    (value neutral here constness).bind fun _ => pure _

theorem directives (constness : Constness) :
    (Grammar.directives constness).Balances source limit depth opened inside :=
  repeatWhile _ <| located <| (mark rfl).bind fun _ => name.bind fun _ =>
    (arguments neutral here constness).bind fun _ => pure _

/-! ## Selections -/

theorem selectionSet : Grammar.selectionSet.Balances source limit depth opened inside :=
  fun _ isOn same => nested_current neutral here isOn same nofun fun other =>
    (other rfl).elim

theorem field : Grammar.field.Balances source limit depth opened inside := by
  refine located <| bind ?_ fun names => ?_
  · refine name.bind fun _ => (optionalMark rfl).bind fun there => ?_
    split
    · exact name.bind fun _ => pure _
    · exact pure _
  · exact (arguments neutral here _).bind
      fun _ => (directives neutral here _).bind fun _ =>
        (atMark _).bind fun there =>
          ((selectionSet neutral here).optional there).bind fun _ => pure _

omit neutral here in
theorem fragmentName :
    Grammar.fragmentName.Balances source limit depth opened inside := by
  refine (peek .current).bind fun found => ?_
  split
  · exact refuse fun _ => nofun
  · exact name

theorem spread : Grammar.spread.Balances source limit depth opened inside := by
  refine located <| (mark rfl).bind fun _ => (optionalKeyword _).bind fun conditional =>
    (peek .current).bind fun found => ?_
  split
  · exact fragmentName.bind fun _ => (directives neutral here _).bind fun _ => pure _
  · exact (namedType.optional conditional).bind
      fun _ => (directives neutral here _).bind fun _ =>
        (selectionSet neutral here).bind fun _ => pure _

theorem selection : Grammar.selection.Balances source limit depth opened inside := by
  refine (atMark _).bind fun there => ?_
  split
  · exact spread neutral here
  · exact field neutral here

/-! ## Definitions that are executed -/

theorem variableDefinition (constness : Constness) :
    (Grammar.variableDefinition constness).Balances source limit depth opened inside :=
  located <| variableReference.bind fun _ => (mark rfl).bind
    fun _ => (typeReference neutral here).bind fun _ =>
      (defaultValue neutral here constness).bind fun _ =>
        (directives neutral here constness).bind fun _ => pure _

theorem operationDefinition (constness : Constness) :
    (Grammar.operationDefinition constness).Balances source limit depth
      opened inside := by
  refine located <| (atMark _).bind fun bare => ?_
  split
  · exact (selectionSet neutral here).bind fun _ => pure _
  · exact operationType.bind fun _ => (peek .current).bind
      fun _ => (name.optional _).bind fun _ =>
        (optionalMany_parens (variableDefinition neutral here constness)).bind fun _ =>
          (directives neutral here _).bind fun _ =>
            (selectionSet neutral here).bind fun _ => pure _

theorem fragmentDefinition :
    Grammar.fragmentDefinition.Balances source limit depth opened inside :=
  located <| (keyword _).bind fun _ => fragmentName.bind fun _ => (keyword _).bind
    fun _ => namedType.bind fun _ =>
      (directives neutral here _).bind fun _ =>
        (selectionSet neutral here).bind fun _ => pure _

/-! ## Definitions of types -/

omit neutral here in
theorem description : Grammar.description.Balances source limit depth opened inside :=
  (peek .current).bind fun _ => stringValue.optional _

theorem inputValueDefinition (constness : Constness) :
    (Grammar.inputValueDefinition constness).Balances source limit depth opened inside :=
  located <| description.bind fun _ => name.bind fun _ => (mark rfl).bind fun _ =>
    (typeReference neutral here).bind
      fun _ => (defaultValue neutral here constness).bind fun _ =>
        (directives neutral here constness).bind fun _ => pure _

theorem argumentDefinitions (constness : Constness) :
    (Grammar.argumentDefinitions constness).Balances source limit depth opened inside :=
  optionalMany_parens (inputValueDefinition neutral here constness)

theorem fieldDefinition (constness : Constness) :
    (Grammar.fieldDefinition constness).Balances source limit depth opened inside :=
  located <| description.bind fun _ => name.bind
    fun _ => (argumentDefinitions neutral here constness).bind fun _ =>
      (mark rfl).bind fun _ => (typeReference neutral here).bind fun _ =>
        (directives neutral here constness).bind fun _ => pure _

theorem enumValueDefinition (constness : Constness) :
    (Grammar.enumValueDefinition constness).Balances source limit depth opened inside :=
  located <| description.bind fun _ => name.bind fun _ =>
    (directives neutral here constness).bind fun _ => pure _

theorem scalarTypeDefinition (constness : Constness) :
    (Grammar.scalarTypeDefinition constness).Balances source limit depth opened inside :=
  located <| description.bind fun _ => (keyword _).bind fun _ => name.bind fun _ =>
    (directives neutral here constness).bind fun _ => pure _

omit neutral here in
theorem interfaces : Grammar.interfaces.Balances source limit depth opened inside := by
  refine (optionalKeyword _).bind fun there => ?_
  split
  · exact separated rfl namedType
  · exact pure _

omit neutral here in
theorem unionMembers :
    Grammar.unionMembers.Balances source limit depth opened inside := by
  refine (optionalMark rfl).bind fun there => ?_
  split
  · exact separated rfl namedType
  · exact pure _

theorem unionTypeDefinition (constness : Constness) :
    (Grammar.unionTypeDefinition constness).Balances source limit depth opened inside :=
  located <| description.bind fun _ => (keyword _).bind fun _ => name.bind fun _ =>
    (directives neutral here constness).bind fun _ => unionMembers.bind fun _ => pure _

omit neutral here in
theorem directiveLocation :
    Grammar.directiveLocation.Balances source limit depth opened inside := by
  refine name.bind fun name => ?_
  split
  · exact pure _
  · exact refuse fun _ => nofun

theorem directiveDefinition (constness : Constness) :
    (Grammar.directiveDefinition constness).Balances source limit depth opened inside :=
  located <| description.bind fun _ => (keyword _).bind fun _ => (mark rfl).bind
    fun _ => name.bind fun _ =>
      (argumentDefinitions neutral here constness).bind
        fun _ => (optionalKeyword _).bind fun _ =>
          (keyword _).bind fun _ => (separated rfl directiveLocation).bind fun _ => pure _

/-! ### Definitions with braces -/

section

variable (braces : ∀ brace : Token, brace.lexeme = .punctuator .leftBrace →
  inside (brace :: opened))
include braces

omit neutral here in
theorem optionalMany_braces {α : Type} {item : Rule α}
    (balances : ∀ opened, inside opened →
      item.Balances source limit depth opened inside) :
    (Rule.optionalMany .leftBrace item .rightBrace).Balances source limit depth
      opened inside := by
  rintro lexer isOn rfl
  refine .optionalMany Punctuator.closedBy_braces isOn fun isBrace => ?_
  rw [Token.unclosed_of_brace isBrace]
  exact balances _ (braces _ isBrace)

omit braces in
theorem schemaDefinition (constness : Constness) :
    (Grammar.schemaDefinition constness).Balances source limit depth opened inside := by
  have operationTypes :
      (Rule.many .leftBrace Grammar.operationTypeDefinition .rightBrace).Balances
        source limit depth
      opened inside := by
    rintro lexer isOn rfl
    exact .many Punctuator.closedBy_braces isOn fun _ =>
      located <| operationType.bind fun _ => (mark rfl).bind fun _ =>
        namedType.bind fun _ => pure _
  exact located <| description.bind fun _ => (keyword _).bind
    fun _ => (directives neutral here constness).bind fun _ =>
      operationTypes.bind fun _ => pure _

theorem fieldedTypeDefinition (word : String) (constness : Constness) :
    (Grammar.fieldedTypeDefinition word constness).Balances source limit depth
      opened inside :=
  located <| description.bind fun _ => (keyword _).bind fun _ => name.bind
    fun _ => interfaces.bind fun _ =>
      (directives neutral here constness).bind fun _ =>
        (optionalMany_braces braces fun _ here =>
          fieldDefinition neutral here constness).bind fun _ => pure _

theorem enumTypeDefinition (constness : Constness) :
    (Grammar.enumTypeDefinition constness).Balances source limit depth opened inside :=
  located <| description.bind fun _ => (keyword _).bind fun _ => name.bind fun _ =>
    (directives neutral here constness).bind fun _ =>
      (optionalMany_braces braces fun _ here =>
        enumValueDefinition neutral here constness).bind fun _ => pure _

theorem inputObjectTypeDefinition (constness : Constness) :
    (Grammar.inputObjectTypeDefinition constness).Balances source limit depth
      opened inside :=
  located <| description.bind fun _ => (keyword _).bind fun _ => name.bind fun _ =>
    (directives neutral here constness).bind fun _ =>
      (optionalMany_braces braces fun _ here =>
        inputValueDefinition neutral here constness).bind fun _ => pure _

/-! ## Documents -/

omit neutral here braces in
theorem expect_unmarked {kind : TokenKind} (unmarked : ∀ mark, kind ≠ .punctuator mark) :
    (Rule.expect kind).Balances source limit depth opened inside := by
  refine expect fun lexeme same => ?_
  cases lexeme with
  | punctuator mark => exact (unmarked mark same.symm).elim
  | _ => rfl

theorem definitionOfKeyword {word : String} {constness : Constness}
    {rule : Rule (Definition Extent)}
    (found : Grammar.definitionOfKeyword? word constness = some rule) :
    rule.Balances source limit depth opened inside := by
  unfold Grammar.definitionOfKeyword? at found
  split_ifs at found <;> cases found
  · exact (schemaDefinition neutral here constness).map
  · exact (scalarTypeDefinition neutral here constness).map
  · exact (fieldedTypeDefinition neutral here braces _ constness).map
  · exact (fieldedTypeDefinition neutral here braces _ constness).map
  · exact (unionTypeDefinition neutral here constness).map
  · exact (enumTypeDefinition neutral here braces constness).map
  · exact (inputObjectTypeDefinition neutral here braces constness).map
  · exact (directiveDefinition neutral here constness).map

theorem describedDefinition (constness : Constness) :
    (Grammar.describedDefinition constness).Balances source limit depth
      opened inside := by
  refine (peek .ahead).bind fun found => ?_
  split
  next =>
    split
    next found => exact definitionOfKeyword neutral here braces found
    next => exact refuse fun _ => nofun
  next => exact refuse fun _ => nofun

theorem keywordDefinition (word : String) (constness : Constness) :
    (Grammar.keywordDefinition word constness).Balances source limit depth
      opened inside := by
  unfold Grammar.keywordDefinition
  split_ifs
  · exact (operationDefinition neutral here constness).map
  · exact (fragmentDefinition neutral here).map
  · exact refuse fun _ => nofun
  · exact refuse fun _ => nofun
  · cases found : Grammar.definitionOfKeyword? word constness with
    | none => exact refuse fun _ => nofun
    | some rule => exact definitionOfKeyword neutral here braces found

theorem definition (constness : Constness) :
    (Grammar.definition constness).Balances source limit depth opened inside := by
  refine (peek .current).bind fun found => ?_
  split
  · exact (operationDefinition neutral here constness).map
  · exact keywordDefinition neutral here braces _ constness
  · exact describedDefinition neutral here braces constness
  · exact describedDefinition neutral here braces constness
  · exact refuse fun _ => nofun

theorem document : Grammar.document.Balances source limit depth opened inside :=
  located <| bind (expect_unmarked nofun)
    fun _ => (definition neutral here braces _).bind fun _ =>
      (repeatWhile _ (definition neutral here braces _)).bind fun _ =>
        bind (expect_unmarked nofun) fun _ => pure _

end

omit neutral here in
theorem alone {α : Type} {rule : Rule α}
    (balances : rule.Balances source limit depth opened inside) :
    (Grammar.alone rule).Balances source limit depth opened inside :=
  bind (expect_unmarked nofun) fun _ => balances.bind fun _ =>
    bind (expect_unmarked nofun) fun _ => pure _

end

end Rule.Balances

end

/-! ## Parts within one another -/

theorem Rule.Tracks.production (neutral : source.Neutral limit depth) {part : Nonterminal}
    (begins : part.BeginsAt source lexer) :
    (Grammar.production part).Tracks source limit depth lexer
      (source.unclosedBefore lexer.current) fun more =>
        (part.firstToken lexer).lexeme = .punctuator part.opening ∧
          more = part.firstToken lexer :: source.unclosedBefore
            (part.firstToken lexer) := by
  have isOn := begins.isOn
  cases part with
  | selectionSet =>
      refine .located (bind isOn (.many Punctuator.closedBy_braces isOn fun isBrace => ?_)
        fun _ middle _ isOn same =>
          same ▸ pure)
      exact .selection neutral ⟨isBrace, Token.unclosed_of_brace isBrace⟩
  | list constness =>
      refine .located
        (bind isOn (.any Punctuator.closedBy_brackets isOn fun isBracket => ?_)
        fun _ middle _ isOn same => same ▸ pure)
      exact .value neutral ⟨isBracket, Token.unclosed_of_bracket isBracket⟩ constness
  | object constness =>
      refine .located (bind isOn (.any Punctuator.closedBy_braces isOn fun isBrace => ?_)
        fun _ middle _ isOn same => same ▸ pure)
      exact .objectMember neutral ⟨isBrace, Token.unclosed_of_brace isBrace⟩ constness
  | listElement =>
      have isBracket := begins.opening nofun
      refine Balances.typeReference neutral ⟨isBracket, ?_⟩ lexer isOn rfl
      rw [Source.unclosedBefore_eq (begins.follows rfl) begins.found]
      exact Token.unclosed_of_bracket isBracket

theorem Source.neutral (source : Source) (limit depth : Nat) :
    source.Neutral limit depth := by
  induction depth with
  | zero =>
      intro part lexer after value _ read
      change (Rule.refuse .current (.nestedTooDeep limit)).runAt limit 0 lexer = _ at read
      exact (runAt_refuse_ne_ok _ _ _ read).elim
  | succ depth induction =>
      intro part lexer after value begins read
      change (Grammar.production part).runAt limit depth lexer = _ at read
      have tracks := Tracks.production induction begins
      unfold Tracks at tracks
      rw [read] at tracks
      cases tracks with
      | value same => exact same

end GraphQL
