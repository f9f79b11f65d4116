import GraphQL.Proofs.Reading.Reads

/-! How the combinators of the grammar read. -/

namespace GraphQL

variable {α β : Type} {extentOf : Nat → Nat → Extent} {depth : Nat}
variable {rule other : Rule α} {phrase phrase' : Phrase α} {profile profile' : Profile}

open Rule

/-! ## Single tokens -/

/-- Takes a token if something can be made of it. -/
def Rule.take (make : Lexeme → Option α) (fault : Lexeme → GrammarFault) : Rule α := do
  let found ← peek .current
  match make found with
  | some value =>
      advance
      return value
  | none => refuse .current (fault found)

namespace Reads

theorem take {make : Lexeme → Option α} {fault : Lexeme → GrammarFault}
    {signs : List Sign} {sample : Lexeme} (value : α) (more : make .endOfFile = none)
    (shows : ∀ found value, make found = some value → Shown signs found)
    (sampled : make sample = some value) :
    Reads extentOf depth (Rule.take make fault)
      (Phrase.token fun found value => make found = some value)
        (.single signs sample) where
  toDescribes := .token shows value sampled
  reads := by
    refine .peek fun found => ?_
    cases made : make found with
    | some value =>
        have taken :
            ReadsFrom extentOf (fun place => True ∧ place.current = found) depth .advance
            (Phrase.token fun other _ => other = found) (.single [] default) := by
          refine .advance ?_
          rintro place ⟨_, rfl⟩
          refine ⟨fun equal => ?_, rfl⟩
          rw [equal, more] at made
          cases made
        refine (taken.map fun _ => value).widen ?_ ?_ (by simp [Profile.single])
          (by simp [Profile.single])
        · rintro depth place other after ⟨_, middle, ⟨_, covers, rfl⟩, rfl, rfl⟩
          exact ⟨_, covers, made⟩
        · rintro place other after ⟨_, rfl⟩ _ ⟨found, covers, made'⟩
          rw [← covers.current, made] at made'
          cases made'
          exact ⟨(), after, ⟨found, covers, covers.current.symm⟩, rfl, rfl⟩
    | none =>
        refine .never (fun current => True ∧ current = found)
          (fun _ _ _ _ _ _ => ⟨_, rfl⟩) ?_
        rintro place value after ⟨_, rfl⟩ _ ⟨found, covers, made'⟩
        rw [← covers.current, made] at made'
        cases made'

theorem of_readAt_eq (reads : Reads extentOf depth rule phrase profile)
    (same : ∀ {terms depth place}, place.Closed terms.bound →
      other.readAt terms depth place = rule.readAt terms depth place) :
    Reads extentOf depth other phrase profile where
  toDescribes := reads.toDescribes
  reads := reads.reads.of_readAt_eq same

theorem relax (reads : Reads extentOf depth rule phrase profile)
    (nullable : profile.nullable = profile'.nullable)
    (first : ∀ sign ∈ profile.first, sign ∈ profile'.first)
    (tails : ∀ sign ∈ profile.tails, sign ∈ profile'.tails)
    (barred : ∀ sign ∈ profile.barred, sign ∈ profile'.barred)
    (sample : profile.sample = profile'.sample) :
    Reads extentOf depth rule phrase profile' where
  starts holds := (reads.starts holds).imp (fun empty => ⟨nullable ▸ empty.1, empty.2⟩)
    fun starts => ⟨starts.1.of_subset first, starts.2⟩
  sample ordinal positive bare := by
    rw [← sample]
    exact reads.sample ordinal positive fun shown => bare (shown.of_subset barred)
  reads := reads.reads.widen id (fun _ _ => id) tails barred

theorem map (reads : Reads extentOf depth rule phrase profile) (build : α → β) :
    Reads extentOf depth (do return build (← rule))
      (phrase.bind fun value => Phrase.pure (build value)) profile where
  toDescribes := reads.toDescribes.map build
  reads := reads.reads.map build

theorem spelled {spelling : Spelling} {signs : List Sign} {sample : Lexeme}
    {rule : Rule Unit}
    (fits : Lexeme → Bool) (fault : Lexeme → GrammarFault)
    (more : fits .endOfFile = false)
    (fits_iff : ∀ found, fits found = true ↔ spelling.Fits found)
    (shows : ∀ found, fits found = true → Shown signs found)
    (sampled : fits sample = true)
    (same : ∀ {terms depth place}, rule.readAt terms depth place =
      (if fits place.current then Rule.advance
        else refuse .current (fault place.current)).readAt
        terms depth place) :
    Reads extentOf depth rule (Phrase.spelled spelling) (.single signs sample) := by
  have reads : Reads extentOf depth
      (Rule.take (fun found => if fits found then some () else none) fault)
      (Phrase.token fun found value =>
        (if fits found then some () else none) = some value)
      (.single signs sample) := by
    refine take () (by simp [more]) (fun found _ made => shows found ?_)
      (by simp [sampled])
    cases fit : fits found with
    | true => rfl
    | false => simp [fit] at made
  refine (reads.of_readAt_eq ?_).congr ?_
  · intro terms depth place _
    rw [same, Rule.take, readAt_peek_current_bind]
    cases fits place.current with
    | false => rfl
    | true => exact (readAt_bind_unit _).symm
  · intro depth place value after
    simp only [Phrase.spelled, Phrase.token, ← fits_iff]
    simp

theorem mark (punctuator : Punctuator) :
    Reads extentOf depth (Rule.mark punctuator) (Phrase.spelled (.mark punctuator))
      (.single [.mark punctuator] (.punctuator punctuator)) := by
  refine spelled (·.kind = .punctuator punctuator)
    (.expected (.punctuator punctuator)) rfl
    (fun found => ?_) (fun found => ?_) (by simp [Lexeme.kind]) ?_
  · cases found <;> simp [Spelling.mark, Spelling.Fits, Lexeme.kind]
  · simp [Sign.mark]
  · intro terms depth place
    simp only [decide_eq_true_eq]
    rfl

theorem keyword (word : String) :
    Reads extentOf depth (Rule.keyword word) (Phrase.spelled (.word word))
      (.single [.word word] (.name word)) := by
  refine spelled (·.isKeyword word) (.expectedKeyword word) rfl (fun found => ?_)
    (fun found => ?_) (by simp [Lexeme.isKeyword]) ?_
  · simp [Spelling.word, Spelling.Fits, Lexeme.isKeyword]
  · simp [Lexeme.isKeyword]
  · intro terms depth place
    rfl

/-! ## Choices -/

theorem choose {test : Lexeme → Bool} {begins signs : List Sign} {first second : Rule α}
    (test_iff : ∀ found, test found = true ↔ Shown signs found)
    (reads : ReadsFrom extentOf
      (fun place => test place.current = true) depth first phrase profile)
    (starts : ∀ {depth place value after}, phrase depth place value after →
      Shown begins place.current ∧ place.ordinal < after.ordinal)
    (within : ∀ {found}, Shown begins found → Shown signs found)
    (reads' : Reads extentOf depth second phrase' profile')
    (apart : Apart profile'.first signs = true) :
    Reads extentOf depth (do if test (← peek .current) then first else second)
      (phrase.either phrase') (.choose begins signs profile profile') where
  toDescribes := .choose starts reads'.toDescribes
  reads := by
    refine .peek fun found => ?_
    by_cases passed : test found = true
    · rw [if_pos passed]
      refine (reads.weaken ?_).widen .inl ?_ ?_ ?_
      · rintro place ⟨_, rfl⟩
        exact passed
      · rintro place value after ⟨_, rfl⟩ bare (holds | holds)
        · exact holds
        · have shown := (test_iff _).mp passed
          rcases reads'.starts holds with ⟨nullable, rfl⟩ | ⟨shown', _⟩
          · exact (bare (by simp [Profile.choose, nullable, shown])).elim
          · exact (shown'.not_of_apart apart shown).elim
      · simp [Profile.choose]
      · simp [Profile.choose]
    · rw [if_neg passed]
      refine (reads'.reads.weaken fun _ _ => trivial).widen .inr ?_ ?_ ?_
      · rintro place value after ⟨_, rfl⟩ bare (holds | holds)
        · exact (passed ((test_iff _).mpr (within (starts holds).1))).elim
        · exact holds
      · simp [Profile.choose]
      · simp [Profile.choose]

theorem taking {fits : Lexeme → Bool} {signs : List Sign} {first second : Rule α}
    (fits_iff : ∀ found, fits found = true ↔ Shown signs found)
    (more : fits .endOfFile = false) (reads : Reads extentOf depth first phrase profile)
    (precedes : (Profile.single [] default).Precedes profile)
    (reads' : Reads extentOf depth second phrase' profile')
    (apart : Apart profile'.first signs = true) :
    Reads extentOf depth (do if ← takeIf fits then first else second)
      (((Phrase.token fun found (_ : Unit) => fits found = true).bind fun _ =>
        phrase).either phrase')
      (.choose signs signs profile profile') := by
  have taken :
      ReadsFrom extentOf (fun place => fits place.current = true) depth Rule.advance
      (Phrase.token fun found (_ : Unit) => fits found = true) (.single [] default) := by
    refine .advance fun place fit => ⟨fun equal => ?_, fit⟩
    rw [equal, more] at fit
    cases fit
  have following := taken.bind (fun _ => reads.toDescribes) (fun _ => reads.reads)
    (fun _ _ => trivial) precedes
  refine (choose fits_iff
    (following.widen id (fun _ _ => id) ?_ ?_) ?_ id reads' apart).of_readAt_eq ?_
  · simp [Profile.append, Profile.single]
  · simp [Profile.append, Profile.single]
  · rintro depth place value after ⟨_, middle, ⟨found, covers, fit⟩, holds⟩
    have le := reads.le holds
    rw [covers.2] at le
    rw [covers.current]
    exact ⟨(fits_iff _).mp fit, le⟩
  · intro terms depth place _
    rw [readAt_bind, takeIf, readAt_peek_current_bind, readAt_peek_current_bind]
    cases fits place.current with
    | false => rfl
    | true =>
        simp only [if_true]
        rw [readAt_bind, readAt_bind]
        cases Rule.advance.readAt terms depth place <;> rfl

theorem takingMark (punctuator : Punctuator) {first second : Rule α}
    (reads : Reads extentOf depth first phrase profile)
    (precedes : (Profile.single [] default).Precedes profile)
    (reads' : Reads extentOf depth second phrase' profile')
    (apart : Apart profile'.first [.mark punctuator] = true) :
    Reads extentOf depth (do if ← Rule.optionalMark punctuator then first else second)
      (((Phrase.spelled (.mark punctuator)).bind fun _ => phrase).either phrase')
      (.choose [.mark punctuator] [.mark punctuator] profile profile') := by
  have fits_iff : ∀ found : Lexeme, (found == .punctuator punctuator) = true ↔
      Shown [.mark punctuator] found := by
    simp
  exact (taking fits_iff rfl reads precedes reads' apart).congr fun _ _ _ _ => by
    simp [Phrase.token]

theorem takingKeyword (word : String) {first second : Rule α}
    (reads : Reads extentOf depth first phrase profile)
    (precedes : (Profile.single [] default).Precedes profile)
    (reads' : Reads extentOf depth second phrase' profile')
    (apart : Apart profile'.first [.word word] = true) :
    Reads extentOf depth (do if ← Rule.optionalKeyword word then first else second)
      (((Phrase.spelled (.word word)).bind fun _ => phrase).either phrase')
      (.choose [.word word] [.word word] profile profile') := by
  have fits_iff : ∀ found : Lexeme, found.isKeyword word = true ↔
      Shown [.word word] found := by
    simp [Lexeme.isKeyword]
  exact (taking fits_iff rfl reads precedes reads' apart).congr fun _ _ _ _ => by
    simp [Phrase.token, Lexeme.isKeyword]

theorem choosingMark (punctuator : Punctuator) {first second : Rule α}
    (reads : Reads extentOf depth first phrase profile)
    (nonempty : profile.nullable = false) (within : profile.first ⊆ [.mark punctuator])
    (reads' : Reads extentOf depth second phrase' profile')
    (apart : Apart profile'.first [.mark punctuator] = true) :
    Reads extentOf depth (do if ← Rule.atMark punctuator then first else second)
      (phrase.either phrase')
        (.choose [.mark punctuator] [.mark punctuator] profile profile') := by
  have test_iff : ∀ found : Lexeme, (found == .punctuator punctuator) = true ↔
      Shown [.mark punctuator] found := by
    simp
  refine .of_readAt_eq
    (choose test_iff (reads.reads.weaken fun _ _ => trivial) (fun holds => ?_)
    id reads' apart) fun _ => rfl
  rcases reads.starts holds with ⟨nullable, _⟩ | ⟨shown, lt⟩
  · simp [nonempty] at nullable
  · exact ⟨shown.of_subset within, lt⟩

theorem choose_or_nothing {test : Lexeme → Bool} {signs : List Sign}
    {first : Rule α} {value : α}
    (test_iff : ∀ found, test found = true ↔ Shown signs found)
    (reads : Reads extentOf depth first phrase profile)
    (nonempty : profile.nullable = false) (within : profile.first ⊆ signs) :
    Reads extentOf depth (do if test (← peek .current) then first else return value)
      (phrase.barring value signs)
        ⟨true, signs, profile.tails, profile.barred ++ signs, []⟩ where
  starts holds := by
    rcases holds with holds | ⟨_, rfl, _⟩
    · rcases reads.starts holds with ⟨nullable, _⟩ | ⟨shown, lt⟩
      · simp [nonempty] at nullable
      · exact .inr ⟨shown.of_subset within, lt⟩
    · exact .inl ⟨rfl, rfl⟩
  sample _ _ bare :=
    ⟨value, .inr ⟨rfl, rfl, fun shown => bare (Shown.append_iff.mpr (.inr shown))⟩⟩
  reads := by
    have first : ∀ {depth place value after}, phrase depth place value after →
        Shown signs place.current := by
      intro depth place value after holds
      rcases reads.starts holds with ⟨nullable, _⟩ | ⟨shown, _⟩
      · simp [nonempty] at nullable
      · exact shown.of_subset within
    refine .peek fun found => ?_
    by_cases passed : test found = true
    · rw [if_pos passed]
      refine (reads.reads.weaken fun _ _ => trivial).widen .inl ?_ (by simp) (by simp)
      rintro place value after ⟨_, rfl⟩ bare (holds | ⟨_, rfl, clear⟩)
      · exact holds
      · exact (clear ((test_iff _).mp passed)).elim
    · rw [if_neg passed]
      refine .nothing ?_ ?_
      · rintro place ahead ⟨_, rfl⟩ next deeper
        refine .inr ⟨rfl, rfl, fun shown => ?_⟩
        rcases next with same | bare
        · apply passed
          rw [test_iff, ← same]
          exact shown
        · exact bare (Shown.append_iff.mpr (.inr shown))
      · rintro place found after ⟨_, rfl⟩ _ (holds | ⟨rfl, rfl, _⟩)
        · exact (passed ((test_iff _).mpr (first holds))).elim
        · exact ⟨rfl, rfl⟩

theorem takeIf {fits : Lexeme → Bool} {signs : List Sign} {spelling : Spelling}
    (fits_iff : ∀ found, fits found = true ↔ Shown signs found)
    (more : fits .endOfFile = false)
    (spells_iff : ∀ found, fits found = true ↔ spelling.Fits found) :
    Reads extentOf depth (Rule.takeIf fits) (Phrase.perhaps spelling)
      (.choose signs signs .empty .empty) := by
  have reads : Reads extentOf depth (do
    if ← Rule.takeIf fits then return true else return false) _ _ :=
    taking fits_iff more (.pure true) (by decide) (.pure false) rfl
  refine (reads.of_readAt_eq fun _ => ?_).congr fun depth place value after => ?_
  · rw [readAt_bind]
    rcases (Rule.takeIf fits).readAt _ _ _ with _ | ⟨_ | _, _⟩ <;> rfl
  · simp only [Phrase.perhaps, Phrase.spelled, spells_iff]

theorem optionalMark (punctuator : Punctuator) :
    Reads extentOf depth (Rule.optionalMark punctuator)
      (Phrase.perhaps (.mark punctuator))
      (.choose [.mark punctuator] [.mark punctuator] .empty .empty) :=
  takeIf (fun found => by simp) rfl fun found => by simp [Spelling.mark, Spelling.Fits]

theorem optionalKeyword (word : String) :
    Reads extentOf depth (Rule.optionalKeyword word) (Phrase.perhaps (.word word))
      (.choose [.word word] [.word word] .empty .empty) :=
  takeIf (fun found => by simp [Lexeme.isKeyword]) rfl fun found => by
    simp [Spelling.word, Spelling.Fits, Lexeme.isKeyword]

/-! ## Several items -/

section Items

variable {item : Rule α} (opening closing : Punctuator)

theorem itemsUntil (reads : Reads extentOf depth item phrase profile)
    (isItem : Grammar.IsItem item) (repeats : profile.RepeatsUntil closing) :
    Reads extentOf depth (Rule.itemsUntil closing item)
      (phrase.star.bind fun items =>
        (Phrase.spelled (.mark closing)).bind fun _ => .pure items)
      ⟨false, profile.first ++ [.mark closing], [], [], [.punctuator closing]⟩ := by
  have ⟨nonempty, tails, first, bare, _⟩ := repeats
  rw [apart_append] at tails
  have items :
      Reads extentOf depth (.repeatWhile (· != .punctuator closing) item) phrase.star
      (profile.star [.other (.punctuator closing)]) := by
    refine reads.repeatWhile (.item isItem) nonempty (fun found => by simp)
      (fun found shown => ?_) tails.1
    have := shown.not_of_apart first
    simp_all
  refine items.bind (fun items => (mark closing).map fun _ => items) ⟨?_, nofun, ?_, ?_⟩
  · simpa [Apart, Profile.single, Profile.star, Sign.apart, Sign.mark] using tails.2
  · simpa [Profile.single, Profile.star] using bare
  · simp [Profile.single, Lexeme.isPlain]

theorem any (reads : Reads extentOf depth item phrase profile)
    (isItem : Grammar.IsItem item) (repeats : profile.RepeatsUntil closing) :
    Reads extentOf depth (Rule.any opening item closing) (phrase.enclosed opening closing)
      ⟨false, [.mark opening], [], [], [.punctuator opening, .punctuator closing]⟩ := by
  refine (mark opening).bind (fun _ => itemsUntil closing reads isItem repeats) ?_
  simp [Profile.Precedes, Apart, Profile.single, Lexeme.isPlain]

theorem many (reads : Reads extentOf depth item phrase profile)
    (isItem : Grammar.IsItem item) (repeats : profile.RepeatsUntil closing) :
    Reads extentOf depth (Rule.many opening item closing) (phrase.many opening closing)
      ⟨false, [.mark opening], [], [],
        .punctuator opening :: profile.sample ++ [.punctuator closing]⟩ := by
  have ⟨nonempty, tails, first, bare, plain⟩ := repeats
  have others := itemsUntil closing reads isItem repeats
  have items := reads.bind (fun value => others.map (value :: ·))
    ⟨tails, nofun, by simpa using bare, by simp [Lexeme.isPlain]⟩
  have reads' :=
    (mark opening).bind (fun _ => items) ⟨rfl, by simp [Profile.append], ?_, ?_⟩
  · have equal : (Profile.single [.mark opening] (.punctuator opening)).append
        (profile.append ⟨false, profile.first ++ [.mark closing], [], [],
          [.punctuator closing]⟩) =
        ⟨false, [.mark opening], [], [],
          .punctuator opening :: profile.sample ++ [.punctuator closing]⟩ := by
      simp [Profile.append, Profile.single]
    rw [equal] at reads'
    refine reads'.congr fun depth place items after => ⟨?_, ?_⟩
    · rintro ⟨_, _, opened, value, _, holds, values, _,
        ⟨_, _, rest, _, _, closed, rfl, rfl⟩, rfl, rfl⟩
      exact ⟨by simp, (), _, opened, value :: values, _, ⟨_, holds,
        rest⟩, (), _, closed, rfl, rfl⟩
    · rintro ⟨nonempty, _, _, opened, items, _, rest, _, _, closed, rfl, rfl⟩
      obtain ⟨value, values, rfl⟩ := List.exists_cons_of_ne_nil nonempty
      obtain ⟨middle, holds, rest⟩ := rest
      exact ⟨(), _, opened, value, _, holds, values, _,
        ⟨values, _, rest, (), _, closed, rfl, rfl⟩, rfl, rfl⟩
  · simp [Profile.single]
  · simpa [Profile.append, or_imp, forall_and, Lexeme.isPlain] using plain

theorem optionalMany (reads : Reads extentOf depth item phrase profile)
    (isItem : Grammar.IsItem item) (repeats : profile.RepeatsUntil closing) :
    Reads extentOf depth (Rule.optionalMany opening item closing)
      ((phrase.many opening closing).either (.pure []))
      ⟨true, [.mark opening], [.mark opening], [], []⟩ := by
  exact choosingMark opening (many opening closing reads isItem repeats) rfl (fun _ => id)
    (.pure []) rfl

theorem optionalMany_barring (reads : Reads extentOf depth item phrase profile)
    (isItem : Grammar.IsItem item) (repeats : profile.RepeatsUntil closing) :
    Reads extentOf depth (Rule.optionalMany opening item closing)
      ((phrase.many opening closing).barring [] [.mark opening])
      ⟨true, [.mark opening], [], [.mark opening], []⟩ := by
  have shown : ∀ found : Lexeme, (found == .punctuator opening) = true ↔
      Shown [.mark opening] found := by
    simp
  exact (choose_or_nothing shown (many opening closing reads isItem repeats) rfl
    (by simp)).of_readAt_eq fun _ => rfl

theorem separated {separator : Punctuator} {signs : List Sign} {sample : Lexeme}
    (reads : Reads extentOf depth item phrase (.single signs sample))
    (isItem : Grammar.IsItem item)
    (apart : Apart [.mark separator] signs = true) (plain : sample.isPlain = true) :
    Reads extentOf depth (Rule.separated separator item) (phrase.separated separator)
      ⟨false, .mark separator :: signs, [.mark separator], [], [sample]⟩ := by
  have following : Reads extentOf depth (do Rule.mark separator; item)
      ((Phrase.spelled (.mark separator)).bind fun _ => phrase)
      ⟨false, [.mark separator], [], [], [.punctuator separator, sample]⟩ :=
    (mark separator).bind (fun _ => reads) (by
      simp [Profile.Precedes, Apart, Profile.single, plain])
  have others : Reads extentOf depth
      (.repeatWhile (· == .punctuator separator) do Rule.mark separator; item) _
      ⟨true, [.mark separator], [.mark separator], [], []⟩ :=
    following.repeatWhile (.separated separator isItem) rfl (fun found => by simp)
      (fun found => id) rfl
  have items := reads.bind (fun first => others.map (first :: ·))
    (by simp [Profile.Precedes, Apart, Profile.single])
  have equal : (Profile.choose [.mark separator] [.mark separator] .empty .empty).append
      ((Profile.single signs sample).append
        ⟨true, [.mark separator], [.mark separator], [], []⟩) =
      ⟨false, .mark separator :: signs, [.mark separator], [], [sample]⟩ := by
    simp [Profile.choose, Profile.append, Profile.single, Profile.empty]
  rw [← equal]
  refine (optionalMark separator).bind (fun _ => items)
    ⟨?_, by
      simp [Profile.append, Profile.single], by simp [Profile.choose, Profile.empty], ?_⟩
  · simpa [Profile.choose, Profile.empty, Profile.append, Profile.single] using apart
  · simpa [Profile.append, Profile.single] using plain

end Items

end Reads

end GraphQL
