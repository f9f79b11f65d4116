import GraphQL.Proofs.Parsing.Layout
import GraphQL.Proofs.Parsing.Levels

/-! Where a source is refused for its depth.

It is refused at a part that lies in as many others as the limit allows, none of which has
been closed yet. What is blamed is the bracket that the part begins with. Only the bracket
of a list type has been taken by then, so the token behind that is blamed, and where a
selection set is missing it is the token in its place. -/

namespace GraphQL

open ParseOptions (Note)

variable {source : Source} {options : ParseOptions} {limit depth left : Nat}
variable {lexer there : Lexer}

/-- A part, and the bracket that opens it -/
structure Level where
  part : Nonterminal
  bracket : Token

namespace Rule

/-- Reading by a rule, with so many levels left, comes to a part that lies in these
levels, of which the first is outermost. -/
inductive Descends (limit : Nat) (part : Nonterminal) (there : Lexer) :
    {α : Type} → (levels : List Level) → (depth : Nat) → Rule α → Lexer → Prop
  | reaches {α : Type} {depth : Nat} {rule : Rule α} {lexer : Lexer} :
      Enters limit (.nested part) depth there depth rule lexer →
      Descends limit part there [] depth rule lexer
  | through {α : Type} {levels : List Level} {depth : Nat} {rule : Rule α}
      {outer : Nonterminal}
      {lexer middle : Lexer} : Enters limit (.nested outer)
      (depth + 1) middle (depth + 1) rule lexer →
      Descends limit part there levels depth (Grammar.production outer) middle →
      Descends limit part there (⟨outer, outer.firstToken middle⟩ :: levels)
        (depth + 1) rule lexer

namespace Enters

variable {α β γ : Type} {rule : Rule α} {goal : Rule β} {further : Rule γ} {left' : Nat}
variable {there' : Lexer}

theorem trans (enters : Enters limit goal left there depth rule lexer)
    (enters' : Enters limit further left' there' left goal there) :
    Enters limit further left' there' depth rule lexer := by
  induction enters with
  | here => exact enters'
  | first _ induction => exact .first induction
  | second run _ induction => exact .second run induction
  | located _ induction => exact .located induction
  | repeatWhile _ induction => exact .repeatWhile induction
  | nested _ induction => exact .nested induction

theorem higher (enters : Enters limit goal left there depth rule lexer) (more : Nat) :
    Enters (limit + more) goal (left + more) there (depth + more) rule lexer := by
  induction enters with
  | here => exact .here
  | first _ induction => exact .first induction
  | @second _ _ depth first _ value lexer middle run _ induction =>
      refine .second ?_ induction
      have same : Parser.SameWithin limit (first.runAt limit depth)
          (first.runAt (limit + more) (depth + more)) :=
        .run (.nonterminal (Nat.le_add_right depth more)) first
      rcases same lexer with same | ⟨failure, after, failed, _⟩
      · rw [same, run]
      · rw [run] at failed
        cases failed
  | located _ induction => exact .located induction
  | repeatWhile _ induction => exact .repeatWhile induction
  | @nested depth part lexer _ induction =>
      rw [Nat.add_right_comm]
      exact .nested induction

end Enters

namespace Descends

variable {α : Type} {rule : Rule α} {part : Nonterminal} {levels : List Level}

theorem enters (descends : Descends limit part there levels depth rule lexer) :
    ∃ left, left + levels.length = depth ∧
      Enters limit (.nested part) left there depth rule lexer := by
  induction descends with
  | reaches enters => exact ⟨_, rfl, enters⟩
  | through enters _ induction =>
      obtain ⟨left, count, inside⟩ := induction
      exact ⟨left, by
        rw [List.length_cons, ← Nat.add_assoc, count], enters.trans (.nested inside)⟩

end Descends

/-! ## From the refusal to the part -/

/-- Where reading by a rule is refused for depth, it has come through all its
levels to a part. The brackets of these are open in front of the part, and those
that the rule has opened around them. -/
theorem exists_descends_of_tracked {α : Type} {rule : Rule α} {opened : List Token}
    {inside : List Token → Prop} {fault : GrammarFault} {ordinal : Nat} {after : Lexer}
    (tracked : Tracked source limit depth rule lexer opened inside
      (.error (.grammatical fault ordinal), after))
    (tooDeep : ¬ fault.IsMisfit) :
    ∃ levels part more, Descends limit part after levels depth rule lexer ∧
      levels.length = depth ∧
      fault = .nestedTooDeep limit ∧ ordinal = after.current.ordinal ∧
      part.BeginsAt source after ∧
      (∀ level ∈ levels, level.bracket.lexeme = .punctuator level.part.opening) ∧
      inside more ∧
      source.unclosedBefore (part.firstToken after) =
        (levels.map Level.bracket).reverse ++ more := by
  induction depth generalizing α lexer opened inside with
  | zero =>
      cases tracked with
      | other other =>
          exact (tooDeep fun limit equal => other limit ⟨ordinal, by rw [equal]⟩).elim
      | @refused part there _ _ enters refused begins here =>
          change Parser.refuse .current (.nestedTooDeep limit) there = _ at refused
          cases refused
          exact ⟨[], part, _, .reaches enters, rfl, rfl, rfl, begins,
            List.forall_mem_nil _, here, rfl⟩
  | succ depth induction =>
      cases tracked with
      | other other =>
          exact (tooDeep fun limit equal => other limit ⟨ordinal, by rw [equal]⟩).elim
      | @refused outer middle _ _ enters refused begins here =>
          change (Grammar.production outer).runAt limit depth middle = _ at refused
          have inner := Tracks.production (source.neutral limit depth) begins
          rw [Tracks, refused] at inner
          obtain ⟨levels, part, more, descends, count, equal, blamed, begins', brackets,
              ⟨isBracket, rfl⟩, unclosed⟩ :=
            induction inner
          refine ⟨⟨outer, outer.firstToken middle⟩ :: levels, part, _,
            .through enters descends,
            congrArg Nat.succ count, equal, blamed, begins',
              List.forall_mem_cons.mpr ⟨isBracket, brackets⟩, here, ?_⟩
          rw [unclosed, List.map_cons, List.reverse_cons, List.append_assoc,
            List.singleton_append]

theorem runAt_selectionSet_of_missing
    (missing : lexer.current.lexeme ≠ .punctuator .leftBrace) :
    (Rule.nested .selectionSet).runAt limit (depth + 1) lexer =
      (.error (.grammatical
        (.expected (.punctuator .leftBrace) lexer.current.lexeme) lexer.current.ordinal),
        lexer) := by
  have refused : (Rule.mark .leftBrace).runAt limit depth lexer = (.error (.grammatical
      (.expected (.punctuator .leftBrace) lexer.current.lexeme) lexer.current.ordinal),
        lexer) := by
    change Rule.runAt (if lexer.current.lexeme.kind = .punctuator .leftBrace then _
      else _) _ _ _ = _
    rw [if_neg (mt Lexeme.kind_eq_punctuator.mp missing)]
    rfl
  have enters : Enters limit (Rule.mark .leftBrace) depth lexer (depth + 1)
      (.nested .selectionSet) lexer :=
    .nested (.located (.first (.first .here)))
  exact enters.fails refused

end Rule

/-! ## What is blamed -/

/-- What is blamed if a part lies too deep, given what comes of parsing with any limit -/
inductive Blames {β : Type} (outcome : Nat → Except Diagnostic β) (limit : Nat)
    (part : Nonterminal) (there : Lexer) (blamed : Token) : Prop
  /-- The bracket that the part begins with. -/
  | bracket : part ≠ .listElement → there.current.lexeme = .punctuator part.opening →
      blamed = there.current →
      Blames outcome limit part there blamed
  /-- The token behind the bracket of a list type. -/
  | behind : part = .listElement → there.last.lexeme = .punctuator .leftBracket →
      blamed.ordinal = there.last.ordinal + 1 → blamed = there.current →
      Blames outcome limit part there blamed
  /-- What stands in the place of a selection set. With any higher limit it
  is blamed for that. -/
  | missing : part = .selectionSet → there.current.lexeme ≠ .punctuator .leftBrace →
      blamed = there.current →
      (∀ higher > limit, ∃ diagnostic, outcome higher = .error diagnostic ∧
        diagnostic.kind = .unexpectedToken (some "\"\x7b\"") blamed.description ∧
        diagnostic.positions = [blamed.start.offset]) →
      Blames outcome limit part there blamed

/-- The source is refused for its depth at a part. Reading it by the rule comes to that
part within just as many levels as the limit allows. In front of the bracket that the part
begins with, the brackets of these levels are open, and of others none but the brace
around the members of a type, if there may be one. -/
structure RefusedAt {α β : Type} (rule : Rule α) (mayBeMember : Bool)
    (source : Source) (limit : Nat)
    (outcome : Nat → Except Diagnostic β) (diagnostic : Diagnostic) (levels : List Level)
    (part : Nonterminal) (there : Lexer) (blamed : Token) : Prop where
  descends : rule.Descends limit part there levels limit (.start source)
  length_eq : levels.length = limit
  brackets : ∀ level ∈ levels, level.bracket.lexeme = .punctuator level.part.opening
  unclosed : source.unclosedBefore (part.firstToken there) =
    (levels.map Level.bracket).reverse ∨
    mayBeMember = true ∧ ∃ brace : Token, brace.lexeme = .punctuator .leftBrace ∧
      source.unclosedBefore (part.firstToken there) =
        (levels.map Level.bracket).reverse ++ [brace]
  found : (significant source.scanned)[blamed.ordinal]? = some blamed
  blames : Blames outcome limit part there blamed
  positions : diagnostic.positions = [blamed.start.offset]

/-- Wherever a source is refused for its depth, that is so. -/
def RefusesAtLevels {α β : Type} (rule : Rule α) (mayBeMember : Bool) (source : Source)
    (options : ParseOptions) (outcome : Nat → Except Diagnostic β) : Prop :=
  ∀ diagnostic limit, outcome options.maxNestingDepth = .error diagnostic →
    diagnostic.kind = .nestedTooDeep limit → limit = options.maxNestingDepth ∧
      ∃ levels part there blamed,
        RefusedAt rule mayBeMember source limit outcome diagnostic levels
          part there blamed

section

variable {Tree : Type → Type} {rule : Rule (Tree Extent)}
variable (map : (Extent → Note) → Tree Extent → Tree Note)

theorem readBy_eq_error (isOn : there.IsOn source) {fault : GrammarFault}
    (failed : rule.runAt options.maxNestingDepth options.maxNestingDepth (.start source) =
      (.error (.grammatical fault there.current.ordinal), there)) :
    (readBy rule map options (.start source)).1 =
      .error (fault.diagnostic source options there.current) := by
  rw [Rule.readBy_eq map options failed]
  change Except.error (Failure.diagnostic _ _ _ _) = _
  rw [Failure.diagnostic, List.getElem?_toArray, isOn.getElem?_ordinal.2,
    Option.getD_some, isOn.source_eq]

/-- Where a selection set is missing, that is found with any higher limit. -/
theorem readBy_of_missing {levels : List Level}
    (descends : rule.Descends limit .selectionSet there levels limit (.start source))
    (count : levels.length = limit)
    (isOn : there.IsOn source) (missing : there.current.lexeme ≠ .punctuator .leftBrace)
    {higher : Nat} (gt : higher > limit) :
    (readBy rule map (options.withLimit higher) (.start source)).1 = .error
      ((GrammarFault.expected (.punctuator .leftBrace) there.current.lexeme).diagnostic
        source
        (options.withLimit higher) there.current) := by
  obtain ⟨left, sum, enters⟩ := descends.enters
  obtain ⟨more, rfl⟩ := Nat.exists_eq_add_of_lt gt
  have exhausted : left = 0 := by omega
  subst exhausted
  have enters' := enters.higher (more + 1)
  rw [Nat.zero_add] at enters'
  exact readBy_eq_error map isOn
    (enters'.fails (Rule.runAt_selectionSet_of_missing missing))

/-- What is blamed depends on the part that lies too deep. -/
theorem blames_of_descends {part : Nonterminal} {levels : List Level}
    (descends : rule.Descends limit part there levels limit (.start source))
    (count : levels.length = limit) (begins : part.BeginsAt source there) :
    Blames (fun limit => (readBy rule map (options.withLimit limit) (.start source)).1)
      limit part there
      there.current := by
  cases part with
  | list | object => exact .bracket nofun (begins.opening nofun) rfl
  | listElement => exact .behind rfl (begins.opening nofun) (begins.follows rfl) rfl
  | selectionSet =>
      by_cases isBrace : there.current.lexeme = .punctuator .leftBrace
      · exact .bracket nofun isBrace rfl
      · refine .missing rfl isBrace rfl fun higher gt => ?_
        exact ⟨_, readBy_of_missing map descends count begins.isOn isBrace gt, rfl, rfl⟩

theorem refusesAtLevels (mayBeMember : Bool)
    (balances : ∀ limit, rule.Balances source limit limit [] fun more => more = [] ∨
      mayBeMember = true ∧ ∃ brace : Token, brace.lexeme = .punctuator .leftBrace ∧
      more = [brace]) :
    RefusesAtLevels rule mayBeMember source options fun limit =>
      (readBy rule map (options.withLimit limit) (.start source)).1 := by
  intro diagnostic limit refused isTooDeep
  change (readBy rule map options (.start source)).1 = _ at refused
  cases run : rule.runAt options.maxNestingDepth options.maxNestingDepth
    (.start source) with
  | mk outcome after =>
  have reported := Rule.readBy_eq map options run
  have tracked := balances options.maxNestingDepth _ (Lexer.isOn_start source) rfl
  rw [Rule.Tracks, run] at tracked
  rw [refused] at reported
  cases outcome with
  | ok tree => cases reported
  | error failure =>
  cases failure with
  | lexical error =>
      cases reported
      cases isTooDeep
  | grammatical fault ordinal =>
      obtain rfl : fault = .nestedTooDeep limit := by
        cases reported
        rw [Failure.diagnostic, (fault.kind_diagnostic ..).1] at isTooDeep
        cases fault <;> cases isTooDeep
        rfl
      obtain ⟨levels, part, more, descends, count, equal, rfl, begins, brackets,
          around, unclosed⟩ :=
        Rule.exists_descends_of_tracked tracked fun misfit => misfit limit rfl
      obtain rfl : limit = options.maxNestingDepth := GrammarFault.nestedTooDeep.inj equal
      refine ⟨rfl, levels, part, after, after.current, descends, count, brackets, ?_,
        begins.isOn.getElem?_ordinal.1, blames_of_descends map descends count begins, ?_⟩
      · rcases around with rfl | ⟨isMember, brace, isBrace, rfl⟩
        · exact .inl (by rw [unclosed, List.append_nil])
        · exact .inr ⟨isMember, brace, isBrace, unclosed⟩
      · rw [readBy_eq_error map begins.isOn run] at refused
        cases refused
        rfl

end

/-! ## Sources -/

/-- A source that is refused for its depth is refused at a part that is one too deep. What
is blamed is the bracket of this part, but for a list type the token behind that, and
where a selection set is missing the token in its place. -/
theorem refused_at_levels (source : Source) (options : ParseOptions) :
    RefusesAtLevels Grammar.document true source options
      (fun limit => parse source (options.withLimit limit)) ∧
      RefusesAtLevels Grammar.valueAlone false source options
        (fun limit => parseValue source (options.withLimit limit)) ∧
      RefusesAtLevels Grammar.typeAlone false source options
        (fun limit => parseType source (options.withLimit limit)) := by
  refine ⟨refusesAtLevels Document.map true fun limit => ?_,
    refusesAtLevels Value.map false fun limit => ?_,
    refusesAtLevels TypeReference.map false fun limit => ?_⟩
  · exact .document (source.neutral limit limit) (.inl rfl) fun brace isBrace =>
      .inr ⟨rfl, brace, isBrace, rfl⟩
  · exact .alone (.value (source.neutral limit limit) (.inl rfl) .variable)
  · exact .alone (.typeReference (source.neutral limit limit) (.inl rfl))

theorem object_refused_at_levels : ∃ diagnostic levels part there blamed,
    parse { body := "\x7ba(b:[\x7bc:1\x7d])\x7d" } ⟨false, 2⟩ = .error diagnostic ∧
      diagnostic.kind = .nestedTooDeep 2 ∧
      RefusedAt Grammar.document true { body := "\x7ba(b:[\x7bc:1\x7d])\x7d" } 2
        (fun limit =>
          parse { body := "\x7ba(b:[\x7bc:1\x7d])\x7d" } (ParseOptions.withLimit
            ⟨false, 2⟩ limit))
        diagnostic levels part there blamed ∧ diagnostic.positions = [6] := by
  have reported :
      ((parse { body := "\x7ba(b:[\x7bc:1\x7d])\x7d" } ⟨false, 2⟩).mapError
        fun diagnostic =>
          (diagnostic.kind, diagnostic.positions)).map (fun _ => ()) =
            .error (.nestedTooDeep 2, [6]) := by
        decide +kernel
  cases failed : parse { body := "\x7ba(b:[\x7bc:1\x7d])\x7d" } ⟨false, 2⟩ with
  | ok document =>
      rw [failed] at reported
      cases reported
  | error diagnostic =>
      rw [failed] at reported
      obtain ⟨kind, positions⟩ := Prod.mk.inj (Except.error.inj reported)
      obtain ⟨_, levels, part, there, blamed, refusedAt⟩ :=
        (refused_at_levels { body := "\x7ba(b:[\x7bc:1\x7d])\x7d" } ⟨false, 2⟩).1
          diagnostic 2 failed kind
      exact ⟨diagnostic, levels, part, there, blamed, rfl, kind, refusedAt, positions⟩

/-- In a list type that is too deep, the name behind its bracket is blamed. -/
theorem list_type_blames_name :
    ∃ diagnostic, parseType { body := "[[[[Int]]]]" } ⟨false, 3⟩ = .error diagnostic ∧
      diagnostic.kind = .nestedTooDeep 3 ∧ diagnostic.positions = [4] ∧
      ∀ token ∈ significant (Source.scanned { body := "[[[[Int]]]]" }),
        token.start.offset ∈ diagnostic.positions →
        token.lexeme = .name "Int" := by
  have failed : parseType { body := "[[[[Int]]]]" } ⟨false, 3⟩ = .error _ := rfl
  refine ⟨_, failed, rfl, rfl, ?_⟩
  decide +kernel

end GraphQL
