import GraphQL.Proofs.Derivation.Nesting
import GraphQL.Proofs.Reading.Parse

/-! The limit on nesting.

A limit decides only whether a source is refused for being nested too deep. It is,
just if its tree is nested deeper than the limit. -/

namespace GraphQL

variable {α β : Type}

def Failure.IsTooDeep (limit : Nat) (failure : Failure) : Prop :=
  ∃ ordinal, failure = .grammatical (.nestedTooDeep limit) ordinal

/-- Wherever it does not fail on its limit, the first parser is the same as the second. -/
def Parser.SameWithin (limit : Nat) (parser deeper : Parser α) : Prop :=
  ∀ lexer, deeper lexer = parser lexer ∨
    ∃ failure after, parser lexer = (.error failure, after) ∧ failure.IsTooDeep limit

namespace Parser.SameWithin

variable {limit : Nat}

theorem refl (parser : Parser α) : SameWithin limit parser parser := fun _ => .inl rfl

theorem bind {first first' : Parser α} {second second' : α → Parser β}
    (before : SameWithin limit first first')
    (behind : ∀ value, SameWithin limit (second value) (second' value)) :
    SameWithin limit (Parser.bind first second) (Parser.bind first' second') := by
  intro lexer
  unfold Parser.bind
  rcases before lexer with same | ⟨failure, after, outcome, tooDeep⟩
  · rw [same]
    split
    next => exact behind _ _
    next => exact .inl rfl
  · rw [outcome]
    exact .inr ⟨failure, after, rfl, tooDeep⟩

theorem located {parser parser' : Parser (Extent → α)}
    (inside : SameWithin limit parser parser') :
    SameWithin limit (Parser.located parser) (Parser.located parser') :=
  fun lexer => inside.bind (fun _ => refl _) lexer

theorem repeatWhile {item item' : Parser α} (promises : Lexeme → Bool)
    (each : SameWithin limit item item') (count : Nat) :
    SameWithin limit (Parser.repeatWhile promises item count)
      (Parser.repeatWhile promises item' count) := by
  induction count with
  | zero => exact refl _
  | succ count induction =>
      intro lexer
      unfold Parser.repeatWhile
      split
      · exact each.bind (fun _ => induction.bind fun _ => refl _) lexer
      · exact .inl rfl

theorem run {deeper deeper' : (part : Nonterminal) → Parser part.Tree}
    (below : ∀ part, SameWithin limit (deeper part) (deeper' part)) (rule : Rule α) :
    SameWithin limit (rule.run deeper) (rule.run deeper') := by
  induction rule with
  | pure | peek | advance | refuse => exact refl _
  | bind first second before behind => exact before.bind behind
  | located rule induction => exact induction.located
  | repeatWhile promises item induction =>
      exact fun lexer => induction.repeatWhile promises _ lexer
  | nested part => exact below part

theorem nonterminal {depth depth' limit' : Nat} (le : depth ≤ depth')
    (part : Nonterminal) :
    SameWithin limit (Parser.nonterminal limit depth part)
      (Parser.nonterminal limit' depth' part) := by
  induction depth generalizing depth' part with
  | zero => exact fun lexer => .inr ⟨_, lexer, rfl, _, rfl⟩
  | succ depth induction =>
      obtain ⟨depth', rfl⟩ :=
        Nat.exists_eq_add_of_le' (Nat.lt_of_lt_of_le (Nat.succ_pos depth) le)
      exact run (induction (Nat.le_of_succ_le_succ le)) (Grammar.production part)

theorem ofRule {limit' : Nat} (le : limit ≤ limit') (rule : Rule α) :
    SameWithin limit (Parser.ofRule rule limit) (Parser.ofRule rule limit') :=
  run (nonterminal le) rule

end Parser.SameWithin

/-! ## Limits on whole sources -/

def RefusesDepth (limit : Nat) (outcome : Except Diagnostic α) : Prop :=
  ∃ diagnostic, outcome = .error diagnostic ∧ diagnostic.kind = .nestedTooDeep limit

/-- How outcomes depend on the limit, where results are nested to some depth -/
structure LimitsExactly (nesting : α → Nat)
    (outcome : Nat → Except Diagnostic α) : Prop where
  /-- What is not refused for its depth stays the same with any higher limit. -/
  stays : ∀ {limit higher}, limit ≤ higher → ¬ RefusesDepth limit (outcome limit) →
    outcome higher = outcome limit
  /-- What has a result with some limit has it just with those it does not exceed. -/
  limits : ∀ {high limit result}, outcome high = .ok result →
    (nesting result ≤ limit → outcome limit = .ok result) ∧
      (limit < nesting result → RefusesDepth limit (outcome limit))

def ParseOptions.withLimit (options : ParseOptions) (limit : Nat) : ParseOptions :=
  { options with maxNestingDepth := limit }

section

variable {Tree : Type → Type}
variable (map : (Extent → ParseOptions.Note) → Tree Extent → Tree ParseOptions.Note)
variable {source : Source} {options : ParseOptions}

theorem readBy_withLimit_eq (rule : Rule (Tree Extent)) {limit higher : Nat}
    (le : limit ≤ higher) (lexer : Lexer)
    (allowed : ¬ RefusesDepth limit (readBy rule map (options.withLimit limit) lexer).1) :
    readBy rule map (options.withLimit higher) lexer =
      readBy rule map (options.withLimit limit) lexer := by
  have same : Parser.SameWithin limit (Parser.ofRule rule limit)
      (Parser.ofRule rule higher) := .ofRule le rule
  rcases same lexer with same | ⟨_, after, outcome, ordinal, rfl⟩
  · change readBy rule map { options with maxNestingDepth := higher } lexer = _
    unfold readBy
    rw [same]
    rfl
  · refine (allowed ?_).elim
    change RefusesDepth limit
      (readBy rule map { options with maxNestingDepth := limit } lexer).1
    unfold readBy
    rw [outcome]
    exact ⟨_, rfl, rfl⟩

end

section

variable {source : Source} {options : ParseOptions} {limit higher : Nat}

theorem parse_withLimit_eq (le : limit ≤ higher)
    (allowed : ¬ RefusesDepth limit (parse source (options.withLimit limit))) :
    parse source (options.withLimit higher) = parse source (options.withLimit limit) :=
  congrArg Prod.fst (readBy_withLimit_eq Document.map Grammar.document le _ allowed)

theorem parseValue_withLimit_eq (le : limit ≤ higher)
    (allowed : ¬ RefusesDepth limit (parseValue source (options.withLimit limit))) :
    parseValue source (options.withLimit higher) =
      parseValue source (options.withLimit limit) :=
  congrArg Prod.fst (readBy_withLimit_eq Value.map Grammar.valueAlone le _ allowed)

theorem parseType_withLimit_eq (le : limit ≤ higher)
    (allowed : ¬ RefusesDepth limit (parseType source (options.withLimit limit))) :
    parseType source (options.withLimit higher) =
      parseType source (options.withLimit limit) :=
  congrArg Prod.fst (readBy_withLimit_eq TypeReference.map Grammar.typeAlone le _ allowed)

end

/-- The results are the trees that have a derivation with as many levels as the limit. -/
theorem limits_of_derives {Tree : Type} {outcome : Nat → Except Diagnostic α}
    (nesting : α → Nat)
    (node : Tree → Node Extent) (result : Tree → α)
    (note : Extent → ParseOptions.Note) (role : Role)
    {constness : Constness} {place after : Place}
    (stays : ∀ {limit higher}, limit ≤ higher → ¬ RefusesDepth limit (outcome limit) →
      outcome higher = outcome limit)
    (accepts : ∀ {limit value}, outcome limit = .ok value ↔
      ∃ tree, (node tree).Derives extentBetween limit constness place after ∧
      value = result tree)
    (nests : ∀ tree, nesting (result tree) =
      (((node tree).map note).outline role).nesting)
    {high limit : Nat} {value : α} (parsed : outcome high = .ok value) :
    (nesting value ≤ limit → outcome limit = .ok value) ∧
      (limit < nesting value → RefusesDepth limit (outcome limit)) := by
  have fits : ∀ {limit}, outcome limit = .ok value → nesting value ≤ limit := by
    intro limit parsed
    obtain ⟨tree, derives, rfl⟩ := accepts.mp parsed
    rw [nests]
    exact (derives.nesting_le_iff note role).mpr derives
  refine ⟨fun within => ?_, fun deep => Classical.byContradiction fun allowed => ?_⟩
  · obtain ⟨tree, derives, rfl⟩ := accepts.mp parsed
    rw [nests] at within
    exact accepts.mpr ⟨tree, (derives.nesting_le_iff note role).mp within, rfl⟩
  · have le : limit ≤ high := Nat.le_of_lt (Nat.lt_of_lt_of_le deep (fits parsed))
    have same := stays le allowed
    rw [parsed] at same
    exact Nat.not_le_of_lt deep (fits same.symm)

/-- With a limit that a source does not exceed, it is parsed to the same result as with
any higher limit. If it can be parsed at all, the limits that it does not exceed are those
that are not lower than the nesting of its tree. -/
theorem limits_exactly (source : Source) (options : ParseOptions) :
    LimitsExactly (fun document : Document ParseOptions.Note => document.outline.nesting)
        (fun limit => parse source (options.withLimit limit)) ∧
      LimitsExactly (fun value : Value ParseOptions.Note =>
        (value.outline .value).nesting)
        (fun limit => parseValue source (options.withLimit limit)) ∧
      LimitsExactly (fun type : TypeReference ParseOptions.Note =>
        (type.outline .type).nesting)
        (fun limit => parseType source (options.withLimit limit)) := by
  refine ⟨⟨parse_withLimit_eq, ?_⟩, ⟨parseValue_withLimit_eq, ?_⟩,
    ⟨parseType_withLimit_eq, ?_⟩⟩
  · intro high limit document parsed
    obtain ⟨tokens, inner, consists⟩ := consists_of_parse parsed
    let note := options.note (significant tokens).toArray
    exact limits_of_derives (·.outline.nesting) Node.document (·.map note) note .document
      parse_withLimit_eq (fun {_ _} => parse_eq_ok consists) (fun tree => rfl) parsed
  · intro high limit value parsed
    obtain ⟨tokens, inner, consists⟩ := consists_of_parseValue parsed
    let note := options.note (significant tokens).toArray
    exact limits_of_derives (fun value => (value.outline .value).nesting) Node.value
      (·.map note) note
      .value parseValue_withLimit_eq (fun {_ _} => parseValue_eq_ok consists)
      (fun tree => congrArg Outline.nesting (Value.outline_eq ..)) parsed
  · intro high limit type parsed
    obtain ⟨tokens, inner, consists⟩ := consists_of_parseType parsed
    let note := options.note (significant tokens).toArray
    exact limits_of_derives (fun type => (type.outline .type).nesting) Node.type
      (·.map note) note
      .type parseType_withLimit_eq (fun {_ _} => parseType_eq_ok consists)
      (fun tree => congrArg Outline.nesting (TypeReference.outline_eq ..)) parsed

end GraphQL
