import GraphQL.Proofs.Derivation.Phrase
import GraphQL.Proofs.Reading.Repetition

/-! What it means that a rule reads a phrase.

A rule of the grammar decides by the next token, and a phrase has its profile. If
they fit, the rule reads the phrase wherever it stands and nothing else, and when
it fails, then at the first token with which the phrase cannot go on. -/

namespace GraphQL

variable {α β : Type}

/-! ## Places with the same tokens ahead -/

/-- From both places on, the tokens are the same up to the one numbered `stop`. -/
def Place.Shares (place other : Place) (stop : Nat) : Prop :=
  other.ordinal = place.ordinal ∧
    other.ahead.take (stop - place.ordinal) = place.ahead.take (stop - place.ordinal)

namespace Place

variable {place other after after' : Place} {stop : Nat} {covered covered' : List Lexeme}

theorem Shares.current (shares : place.Shares other stop) (lt : place.ordinal < stop) :
    other.current = place.current := by
  obtain ⟨_, same⟩ := shares
  have positive : 0 < stop - place.ordinal := Nat.sub_pos_of_lt lt
  obtain ⟨count, equal⟩ := Nat.exists_eq_add_of_lt positive
  rw [equal] at same
  unfold Place.current foremost
  cases before : place.ahead <;> cases behind : other.ahead <;> simp_all

theorem Shares.behind (shares : place.Shares other stop)
    (covers : place.Covers covered after)
    (covers' : other.Covers covered' after') (level : after'.ordinal = after.ordinal) :
    after.Shares after' stop := by
  obtain ⟨ordinal, same⟩ := shares
  have length : covered'.length = covered.length := by
    have := covers.2
    have := covers'.2
    omega
  refine ⟨level, ?_⟩
  have ahead : after.ahead = place.ahead.drop covered.length := by simp [covers.1]
  have ahead' : after'.ahead = other.ahead.drop covered.length := by
    simp [covers'.1, ← length]
  have split : stop - after.ordinal = stop - place.ordinal - covered.length := by
    rw [covers.2, Nat.sub_add_eq]
  rw [ahead, ahead', split, ← List.drop_take, ← List.drop_take, same]

end Place

/-! ## Reading a phrase -/

/-- The source has no fault. -/
def Terms.whole (extentOf : Nat → Nat → Extent) (limit bound : Nat) : Terms :=
  ⟨extentOf, limit, bound, none⟩

/-- The fault would not be mended by a higher limit on nesting. -/
def GrammarFault.IsMisfit (fault : GrammarFault) : Prop :=
  ∀ limit, fault ≠ .nestedTooDeep limit

variable {extentOf : Nat → Nat → Extent} {depth : Nat} {here : Place → Prop}

/-- The tokens in front of the one that is blamed can be completed to the phrase. -/
def Phrase.Viable (phrase : Phrase α) (barred : List Sign) (depth : Nat) (place : Place)
    (blamed : Nat) : Prop :=
  ∃ covered rest, place.ahead = covered ++ rest ∧ rest ≠ [] ∧
    blamed = place.ordinal + covered.length ∧
    (covered = [] ∨
      ∃ completion : List Lexeme, (∀ lexeme ∈ completion, lexeme.isPlain = true) ∧
      ∀ deeper, depth < deeper → ∀ ahead, ¬ Shown barred (foremost ahead) →
        ∃ value, phrase.Holds deeper place.ordinal (covered ++ completion) ahead value)

/-- From places with a current token that is `here`, the rule reads the phrase. -/
structure ReadsFrom (extentOf : Nat → Nat → Extent) (here : Place → Prop) (depth : Nat)
    (rule : Rule α) (phrase : Phrase α) (profile : Profile) : Prop where
  /-- What is read is the phrase, whatever follows. -/
  sound : ∀ {place limit bound value after}, place.Closed bound → here place →
    rule.readAt (.whole extentOf limit bound) depth place = .ok (value, after) →
      ∃ covered, place.Covers covered after ∧ ∀ deeper, depth ≤ deeper → ∀ ahead,
        (foremost ahead = after.current ∨ ¬ Shown profile.barred (foremost ahead)) →
          phrase.Holds deeper place.ordinal covered ahead value
  /-- The phrase is read, unless the next token could be a part of it. -/
  complete : ∀ {place limit bound value after}, place.Closed bound → here place →
    ¬ Shown profile.tails after.current → phrase depth place value after →
      rule.readAt (.whole extentOf limit bound) depth place = .ok (value, after)
  /-- A token is blamed only if all was well up to there. -/
  fails : ∀ {place limit bound failure}, place.Closed bound → here place →
    rule.readAt (.whole extentOf limit bound) depth place = .error failure →
      ∃ fault blamed, failure = some (.grammatical fault blamed) ∧
      place.ordinal ≤ blamed ∧
        (fault.IsMisfit → phrase.Viable profile.barred depth place blamed)
  /-- While the tokens are the same, so is what is read of them. -/
  agrees : ∀ {place place' stop limit limit' bound bound' depth' value after value'
    after'}, place.Closed bound →
    place'.Closed bound' → here place → place.Shares place' stop →
      rule.readAt (.whole extentOf limit bound) depth place = .ok (value, after) →
      rule.readAt (.whole extentOf limit' bound') depth' place' = .ok (value', after') →
        after.ordinal < stop → value' = value ∧ after'.ordinal = after.ordinal
  /-- No token is blamed as long as the tokens are those of a text that can be read. -/
  blames : ∀ {place place' stop limit limit' bound bound' depth' fault blamed value'
    after'}, place.Closed bound →
    place'.Closed bound' → here place → place.Shares place' stop →
      rule.readAt (.whole extentOf limit bound) depth place =
        .error (some (.grammatical fault blamed)) →
      rule.readAt (.whole extentOf limit' bound') depth' place' = .ok (value', after') →
        fault.IsMisfit → stop ≤ blamed

/-- From any place, the rule reads the phrase, which has the profile. -/
structure Reads (extentOf : Nat → Nat → Extent) (depth : Nat) (rule : Rule α)
    (phrase : Phrase α) (profile : Profile) : Prop extends profile.Describes phrase where
  reads : ReadsFrom extentOf (fun _ => True) depth rule phrase profile

variable {rule : Rule α} {phrase phrase' : Phrase α} {profile profile' : Profile}

namespace Phrase.Viable

variable {next : α → Phrase β} {place middle : Place} {blamed : Nat}

/-- Where a phrase can be completed, so can it be with a sample of the next. -/
theorem bind (viable : phrase.Viable profile.barred depth place blamed)
    (describes' : ∀ given, profile'.Describes (next given))
    (precedes : profile.Precedes profile') :
    (phrase.bind next).Viable (profile.append profile').barred depth place blamed := by
  obtain ⟨covered, rest, split, nonempty, count, completed⟩ := viable
  refine ⟨covered, rest, split, nonempty, count, completed.imp_right ?_⟩
  rintro ⟨completion, plain, holds⟩
  refine ⟨completion ++ profile'.sample, ?_, fun deeper lt ahead bare => ?_⟩
  · intro lexeme member
    exact (List.mem_append.mp member).elim (plain lexeme) (precedes.2.2.2 lexeme)
  · obtain ⟨given, holds⟩ := holds deeper lt _ (precedes.bare bare)
    obtain ⟨value, holds'⟩ := (describes' given).sample
      (place.ordinal + (covered ++ completion).length) (Nat.zero_lt_of_lt lt)
      fun shown => bare (Shown.append_iff.mpr (.inl shown))
    rw [← List.append_assoc]
    exact ⟨value, holds.bind holds'⟩

theorem behind {given : α} {before : List Lexeme}
    (viable : (next given).Viable profile'.barred depth middle blamed)
    (describes' : profile'.Describes (next given)) (precedes : profile.Precedes profile')
    (covers : place.Covers before middle)
    (holds : ∀ deeper, depth ≤ deeper → ∀ ahead,
      (foremost ahead = middle.current ∨ ¬ Shown profile.barred (foremost ahead)) →
        phrase.Holds deeper place.ordinal before ahead given) :
    (phrase.bind next).Viable (profile.append profile').barred depth place blamed := by
  obtain ⟨behind, rest, split, nonempty, count, completed⟩ := viable
  refine ⟨before ++ behind, rest, ?_, nonempty, ?_, .inr ?_⟩
  · rw [covers.1, split, List.append_assoc]
  · rw [count, covers.2, List.length_append, Nat.add_assoc]
  · cases behind with
    | nil =>
        refine ⟨profile'.sample, precedes.2.2.2, fun deeper lt ahead bare => ?_⟩
        obtain ⟨value, holds'⟩ := describes'.sample middle.ordinal (Nat.zero_lt_of_lt lt)
          fun shown => bare (Shown.append_iff.mpr (.inl shown))
        rw [covers.2] at holds'
        rw [List.append_nil]
        exact ⟨value,
          (holds deeper (Nat.le_of_lt lt) _ (.inr (precedes.bare bare))).bind holds'⟩
    | cons found behind =>
        obtain ⟨completion, plain, holds'⟩ := completed.resolve_left (by simp)
        refine ⟨completion, plain, fun deeper lt ahead bare => ?_⟩
        obtain ⟨value, holds'⟩ := holds' deeper lt ahead fun shown =>
          bare (Shown.append_iff.mpr (.inl shown))
        rw [covers.2] at holds'
        have first :=
          holds deeper (Nat.le_of_lt lt) (found :: behind ++ completion ++ ahead)
            (.inl (by rw [Place.current, split]; rfl))
        rw [List.append_assoc before]
        exact ⟨value, first.bind holds'⟩

end Phrase.Viable

namespace ReadsFrom

theorem covers (reads : ReadsFrom extentOf here depth rule phrase profile)
    {limit bound : Nat} {place after : Place} {value : α} (closed : place.Closed bound)
    (known : here place)
    (outcome : rule.readAt (.whole extentOf limit bound) depth place =
      .ok (value, after)) :
    phrase depth place value after := by
  obtain ⟨covered, covers, holds⟩ := reads.sound closed known outcome
  have := holds depth (Nat.le_refl _) after.ahead (.inl rfl)
  rw [Phrase.Holds, ← covers.1, ← covers.2] at this
  exact this

theorem weaken {there : Place → Prop}
    (reads : ReadsFrom extentOf here depth rule phrase profile)
    (stronger : ∀ place, there place → here place) :
    ReadsFrom extentOf there depth rule phrase profile where
  sound closed known := reads.sound closed (stronger _ known)
  complete closed known := reads.complete closed (stronger _ known)
  fails closed known := reads.fails closed (stronger _ known)
  agrees closed closed' known := reads.agrees closed closed' (stronger _ known)
  blames closed closed' known := reads.blames closed closed' (stronger _ known)

/-- A rule that reads one phrase reads a wider one, if the two are the same here. -/
theorem widen (reads : ReadsFrom extentOf here depth rule phrase profile)
    (forth : ∀ {depth place value after}, phrase depth place value after →
      phrase' depth place value after)
    (back : ∀ {place value after}, here place → ¬ Shown profile'.tails after.current →
      phrase' depth place value after → phrase depth place value after)
    (tails : profile.tails ⊆ profile'.tails) (barred : profile.barred ⊆ profile'.barred) :
    ReadsFrom extentOf here depth rule phrase' profile' where
  sound closed known outcome := by
    obtain ⟨covered, covers, holds⟩ := reads.sound closed known outcome
    refine ⟨covered, covers, fun deeper le ahead next => forth (holds deeper le ahead ?_)⟩
    exact next.imp_right fun bare shown => bare (shown.of_subset barred)
  complete closed known bare holds :=
    reads.complete closed known (fun shown => bare (shown.of_subset tails))
      (back known bare holds)
  fails closed known outcome := by
    obtain ⟨fault, blamed, equal, le, viable⟩ := reads.fails closed known outcome
    refine ⟨fault, blamed, equal, le, fun misfit => ?_⟩
    obtain ⟨covered, rest, split, nonempty, count, completed⟩ := viable misfit
    refine ⟨covered, rest, split, nonempty, count, completed.imp_right ?_⟩
    rintro ⟨completion, plain, holds⟩
    refine ⟨completion, plain, fun deeper lt ahead bare => ?_⟩
    obtain ⟨value, holds⟩ :=
      holds deeper lt ahead fun shown => bare (shown.of_subset barred)
    exact ⟨value, forth holds⟩
  agrees := reads.agrees
  blames := reads.blames

theorem of_each {places : Nat → Place → Prop}
    (each : ∀ count, ReadsFrom extentOf (places count) depth rule phrase profile)
    (all : ∀ place, ∃ count, places count place) :
    ReadsFrom extentOf (fun _ => True) depth rule phrase profile where
  sound {place _ _ _ _} closed _ := (each _).sound closed (all place).choose_spec
  complete {place _ _ _ _} closed _ := (each _).complete closed (all place).choose_spec
  fails {place _ _ _} closed _ := (each _).fails closed (all place).choose_spec
  agrees {place _ _ _ _ _ _ _ _ _ _ _} closed closed' _ :=
    (each _).agrees closed closed' (all place).choose_spec
  blames {place _ _ _ _ _ _ _ _ _ _ _} closed closed' _ :=
    (each _).blames closed closed' (all place).choose_spec

theorem nowhere (missing : ∀ place, ¬ here place) :
    ReadsFrom extentOf here depth rule phrase profile where
  sound _ known := (missing _ known).elim
  complete _ known := (missing _ known).elim
  fails _ known := (missing _ known).elim
  agrees _ _ known := (missing _ known).elim
  blames _ _ known := (missing _ known).elim

theorem never (known : Lexeme → Prop)
    (refuses : ∀ limit bound depth place, place.Closed bound →
      known place.current → ∃ fault,
      rule.readAt (.whole extentOf limit bound) depth place =
        .error (some (.grammatical fault place.ordinal)))
    (missing : ∀ {place value after}, known place.current →
      ¬ Shown profile.tails after.current →
      ¬ phrase depth place value after) :
    ReadsFrom extentOf (known ·.current) depth rule phrase profile where
  sound closed known outcome := by
    obtain ⟨fault, failure⟩ := refuses _ _ _ _ closed known
    rw [failure] at outcome
    cases outcome
  complete _ known bare holds := (missing known bare holds).elim
  fails {place _ _ _} closed known outcome := by
    obtain ⟨fault, failure⟩ := refuses _ _ _ _ closed known
    rw [failure] at outcome
    cases outcome
    refine ⟨fault, _, rfl, Nat.le_refl _, fun _ => ?_⟩
    exact ⟨[], place.ahead, rfl, closed.ne_nil, rfl, .inl rfl⟩
  agrees closed _ known _ outcome := by
    obtain ⟨fault, failure⟩ := refuses _ _ _ _ closed known
    rw [failure] at outcome
    cases outcome
  blames closed closed' known shares outcome outcome' _ := by
    obtain ⟨fault, failure⟩ := refuses _ _ _ _ closed known
    rw [failure] at outcome
    cases outcome
    apply Nat.le_of_not_lt
    intro lt
    rw [← shares.current lt] at known
    obtain ⟨fault', failure'⟩ := refuses _ _ _ _ closed' known
    rw [failure'] at outcome'
    cases outcome'

theorem nothing {value : α}
    (holds : ∀ {place ahead}, here place →
      (foremost ahead = place.current ∨ ¬ Shown profile.barred (foremost ahead)) →
        ∀ deeper, phrase.Holds deeper place.ordinal [] ahead value)
    (only : ∀ {place found after}, here place → ¬ Shown profile.tails after.current →
      phrase depth place found after → found = value ∧ after = place) :
    ReadsFrom extentOf here depth (Pure.pure value) phrase profile where
  sound _ known outcome := by
    cases outcome
    exact ⟨[], by simp, fun deeper _ ahead next => holds known next deeper⟩
  complete _ known bare holds := by
    obtain ⟨rfl, rfl⟩ := only known bare holds
    rfl
  fails _ _ outcome := by cases outcome
  agrees _ _ _ shares outcome outcome' _ := by
    cases outcome
    cases outcome'
    exact ⟨rfl, shares.1⟩
  blames _ _ _ _ outcome := by cases outcome

theorem pure (value : α) :
    ReadsFrom extentOf here depth (Pure.pure value) (Phrase.pure value) .empty :=
  .nothing (fun _ _ _ => ⟨rfl, rfl⟩) fun _ _ holds => holds

theorem advance {means : Lexeme → Unit → Prop}
    (more : ∀ place, here place → place.current ≠ .endOfFile ∧ means place.current ()) :
    ReadsFrom extentOf here depth .advance (Phrase.token means) (.single [] default) where
  sound {place _ _ _ _} closed known outcome := by
    obtain ⟨after, taken, covers, _⟩ :=
      Rule.readAt_advance_of_closed closed (more _ known).1
    rw [taken] at outcome
    cases outcome
    exact ⟨_, covers, fun _ _ ahead _ => ⟨place.current, ⟨rfl, rfl⟩, (more _ known).2⟩⟩
  complete closed known _ holds := by
    obtain ⟨after', taken, covers, _⟩ :=
      Rule.readAt_advance_of_closed closed (more _ known).1
    obtain ⟨found, covers', _⟩ := holds
    rw [taken, Place.Covers.unique covers covers' rfl]
  fails closed known outcome := by
    obtain ⟨after, taken, _, _⟩ := Rule.readAt_advance_of_closed closed (more _ known).1
    rw [taken] at outcome
    cases outcome
  agrees closed closed' known shares outcome outcome' lt := by
    have covers := Rule.readAt_advance_covers outcome
    have covers' := Rule.readAt_advance_covers outcome'
    exact ⟨rfl, by rw [covers'.2, covers.2, shares.1]; rfl⟩
  blames closed _ known _ outcome := by
    obtain ⟨after, taken, _, _⟩ := Rule.readAt_advance_of_closed closed (more _ known).1
    rw [taken] at outcome
    cases outcome

theorem located {rule : Rule (Extent → α)} {phrase : Phrase (Extent → α)}
    (reads : ReadsFrom extentOf here depth rule phrase profile) :
    ReadsFrom extentOf here depth (.located rule) (phrase.located extentOf) profile where
  sound closed known outcome := by
    obtain ⟨build, inside, rfl⟩ := Rule.readAt_located_eq_ok.mp outcome
    obtain ⟨covered, covers, holds⟩ := reads.sound closed known inside
    refine ⟨covered, covers, fun deeper le ahead next =>
      ⟨build, holds deeper le ahead next, ?_⟩⟩
    rw [covers.2]
    rfl
  complete closed known bare holds := by
    obtain ⟨build, holds, rfl⟩ := holds
    exact Rule.readAt_located_eq_ok.mpr
      ⟨build, reads.complete closed known bare holds, rfl⟩
  fails closed known outcome := by
    obtain ⟨fault, blamed, equal, le, viable⟩ :=
      reads.fails closed known (Rule.readAt_located_eq_error.mp outcome)
    refine ⟨fault, blamed, equal, le, fun misfit => ?_⟩
    obtain ⟨covered, rest, split, nonempty, count, completed⟩ := viable misfit
    refine ⟨covered, rest, split, nonempty, count, completed.imp_right ?_⟩
    rintro ⟨completion, plain, holds⟩
    refine ⟨completion, plain, fun deeper lt ahead bare => ?_⟩
    obtain ⟨build, holds⟩ := holds deeper lt ahead bare
    exact ⟨_, build, holds, rfl⟩
  agrees closed closed' known shares outcome outcome' lt := by
    obtain ⟨build, inside, rfl⟩ := Rule.readAt_located_eq_ok.mp outcome
    obtain ⟨build', inside', rfl⟩ := Rule.readAt_located_eq_ok.mp outcome'
    obtain ⟨rfl, level⟩ := reads.agrees closed closed' known shares inside inside' lt
    exact ⟨by rw [shares.1, level]; rfl, level⟩
  blames closed closed' known shares outcome outcome' := by
    obtain ⟨build', inside', rfl⟩ := Rule.readAt_located_eq_ok.mp outcome'
    exact reads.blames closed closed' known shares
      (Rule.readAt_located_eq_error.mp outcome) inside'

/-- One thing after another. Where the second begins, the first cannot go on. -/
theorem bind {there : Place → Prop} {second : α → Rule β} {next : α → Phrase β}
    (reads : ReadsFrom extentOf here depth rule phrase profile)
    (describes' : ∀ given, profile'.Describes (next given))
    (reads' : ∀ given,
      ReadsFrom extentOf there depth (second given) (next given) profile')
    (leads : ∀ {terms place given middle}, here place →
      rule.readAt terms depth place = .ok (given, middle) → there middle)
    (precedes : profile.Precedes profile') :
    ReadsFrom extentOf here depth (rule >>= second) (phrase.bind next)
      (profile.append profile') where
  sound {_ _ _ _ after} closed known outcome := by
    obtain ⟨given, middle, outcome, outcome'⟩ := Rule.readAt_bind_eq_ok.mp outcome
    obtain ⟨before, covers, holds⟩ := reads.sound closed known outcome
    obtain ⟨behind, covers', holds'⟩ :=
      (reads' given).sound (Rule.readAt_closed outcome closed)
        (leads known outcome) outcome'
    refine ⟨before ++ behind, covers.trans covers', fun deeper le ahead bare => ?_⟩
    have first : foremost (behind ++ ahead) = middle.current ∨
        ¬ Shown profile.barred (foremost (behind ++ ahead)) := by
      cases behind with
      | nil =>
          obtain rfl := (Place.covers_nil _ _).mp covers'
          refine bare.imp_right fun bare shown => bare ?_
          simp only [Profile.append, Shown.append_iff]
          right
          rcases (describes' given).starts
            (holds' depth (Nat.le_refl _) _ (.inl rfl)) with
            ⟨nullable, _⟩ | ⟨_, lt⟩
          · simpa [nullable] using shown
          · simp at lt
      | cons found rest => exact .inl covers'.current.symm
    refine (holds deeper le _ first).bind ?_
    rw [← covers.2]
    exact holds' deeper le ahead <| bare.imp_right fun bare shown =>
      bare (Shown.append_iff.mpr (.inl shown))
  complete {place limit bound _ _} closed known bare holds := by
    obtain ⟨given, middle, holds, holds'⟩ := holds
    have clear : ¬ Shown profile.tails middle.current := by
      intro shown
      rcases (describes' given).starts holds' with ⟨nullable, rfl⟩ | ⟨shown', _⟩
      · exact bare (by simp [Profile.append, nullable, shown])
      · exact shown.not_of_apart precedes.1 shown'
    have outcome :
        rule.readAt (.whole extentOf limit bound) depth place = .ok (given, middle) :=
      reads.complete closed known clear holds
    refine Rule.readAt_bind_eq_ok.mpr ⟨given, middle, outcome, ?_⟩
    refine (reads' given).complete (Rule.readAt_closed outcome closed)
      (leads known outcome) ?_ holds'
    exact fun shown => bare (Shown.append_iff.mpr (.inl shown))
  fails {place _ _ _} closed known outcome := by
    rcases Rule.readAt_bind_eq_error.mp outcome with outcome | ⟨given, middle,
      outcome, outcome'⟩
    · obtain ⟨fault, blamed, equal, le, viable⟩ := reads.fails closed known outcome
      exact ⟨fault, blamed, equal, le, fun misfit =>
        (viable misfit).bind describes' precedes⟩
    · obtain ⟨fault, blamed, equal, le, viable⟩ :=
        (reads' given).fails (Rule.readAt_closed outcome closed)
          (leads known outcome) outcome'
      obtain ⟨before, covers, holds⟩ := reads.sound closed known outcome
      exact ⟨fault, blamed, equal, Nat.le_trans covers.le le,
        fun misfit => (viable misfit).behind (describes' given) precedes covers holds⟩
  agrees closed closed' known shares outcome outcome' lt := by
    obtain ⟨given, middle, outcome, rest⟩ := Rule.readAt_bind_eq_ok.mp outcome
    obtain ⟨given', middle', outcome', rest'⟩ := Rule.readAt_bind_eq_ok.mp outcome'
    obtain ⟨covered, covers⟩ := Rule.readAt_covers outcome
    obtain ⟨covered', covers'⟩ := Rule.readAt_covers outcome'
    obtain ⟨behind, covers''⟩ := Rule.readAt_covers rest
    have there := leads known outcome
    obtain ⟨rfl, level⟩ := reads.agrees closed closed' known shares outcome outcome'
      (Nat.lt_of_le_of_lt covers''.le lt)
    exact (reads' given').agrees (Rule.readAt_closed outcome closed)
      (Rule.readAt_closed outcome' closed') there
        (shares.behind covers covers' level) rest rest' lt
  blames {_ _ stop _ _ _ _ _ _ _ _ _} closed closed' known shares outcome
    outcome' misfit := by
    obtain ⟨given', middle', outcome', rest'⟩ := Rule.readAt_bind_eq_ok.mp outcome'
    rcases Rule.readAt_bind_eq_error.mp outcome with outcome | ⟨given, middle,
      outcome, rest⟩
    · exact reads.blames closed closed' known shares outcome outcome' misfit
    · have closed'' := Rule.readAt_closed outcome closed
      have there := leads known outcome
      rcases Nat.lt_or_ge middle.ordinal stop with lt | ge
      · obtain ⟨covered, covers⟩ := Rule.readAt_covers outcome
        obtain ⟨covered', covers'⟩ := Rule.readAt_covers outcome'
        obtain ⟨rfl, level⟩ :=
          reads.agrees closed closed' known shares outcome outcome' lt
        exact (reads' given').blames closed'' (Rule.readAt_closed outcome' closed') there
          (shares.behind covers covers' level) rest rest' misfit
      · obtain ⟨_, _, equal, le, _⟩ := (reads' given).fails closed'' there rest
        cases equal
        exact Nat.le_trans ge le

theorem map (reads : ReadsFrom extentOf here depth rule phrase profile) (build : α → β) :
    ReadsFrom extentOf here depth (do return build (← rule))
      (phrase.bind fun value => Phrase.pure (build value)) profile := by
  have built : ∀ value, ReadsFrom extentOf (fun _ => True) depth (Pure.pure (build value))
      (Phrase.pure (build value)) .empty := fun value => .pure (build value)
  have reads' := reads.bind (fun value => .pure (build value)) built (fun _ _ => trivial)
    profile.precedes_empty
  rwa [Profile.append_empty] at reads'

theorem of_readAt_eq {other : Rule α}
    (reads : ReadsFrom extentOf here depth rule phrase profile)
    (same : ∀ {terms depth place}, place.Closed terms.bound →
      other.readAt terms depth place = rule.readAt terms depth place) :
    ReadsFrom extentOf here depth other phrase profile where
  sound {place limit bound _ _} closed known outcome := by
    have within : place.Closed (Terms.whole extentOf limit bound).bound := closed
    rw [same within] at outcome
    exact reads.sound closed known outcome
  complete closed known bare holds := by
    rw [same closed]
    exact reads.complete closed known bare holds
  fails closed known outcome := by
    rw [same closed] at outcome
    exact reads.fails closed known outcome
  agrees closed closed' known shares outcome outcome' := by
    rw [same closed] at outcome
    rw [same closed'] at outcome'
    exact reads.agrees closed closed' known shares outcome outcome'
  blames closed closed' known shares outcome outcome' := by
    rw [same closed] at outcome
    rw [same closed'] at outcome'
    exact reads.blames closed closed' known shares outcome outcome'

theorem peek {second : Lexeme → Rule α}
    (reads : ∀ found,
      ReadsFrom extentOf (fun place => here place ∧ place.current = found) depth
      (second found) phrase profile) :
    ReadsFrom extentOf here depth (Rule.peek .current >>= second) phrase profile where
  sound closed known outcome := (reads _).sound closed ⟨known, rfl⟩ outcome
  complete closed known bare holds := (reads _).complete closed ⟨known, rfl⟩ bare holds
  fails closed known outcome := (reads _).fails closed ⟨known, rfl⟩ outcome
  agrees {_ _ stop _ _ _ _ _ _ after _ _} closed closed' known shares outcome
    outcome' lt := by
    obtain ⟨covered, covers⟩ := Rule.readAt_covers outcome
    rw [Rule.readAt_peek_current_bind] at outcome'
    rw [shares.current (Nat.lt_of_le_of_lt covers.le lt)] at outcome'
    exact (reads _).agrees closed closed' ⟨known, rfl⟩ shares outcome outcome' lt
  blames {place _ stop _ _ _ _ _ _ _ _ _} closed closed' known shares outcome
    outcome' misfit := by
    rcases Nat.lt_or_ge place.ordinal stop with lt | ge
    · rw [Rule.readAt_peek_current_bind, shares.current lt] at outcome'
      exact (reads _).blames closed closed' ⟨known, rfl⟩ shares outcome outcome' misfit
    · obtain ⟨_, _, equal, le, _⟩ := (reads _).fails closed ⟨known, rfl⟩ outcome
      cases equal
      exact Nat.le_trans ge le

theorem nested {part : Nonterminal} {phrase : Phrase part.Tree}
    (below : ∀ shallower, depth = shallower + 1 →
      ReadsFrom extentOf here shallower (Grammar.production part) phrase profile) :
    ReadsFrom extentOf here depth (.nested part) phrase.deeper profile where
  sound closed known outcome := by
    cases depth with
    | zero => cases outcome
    | succ shallower =>
        obtain ⟨covered, covers, holds⟩ :=
          (below shallower rfl).sound closed known outcome
        refine ⟨covered, covers, fun deeper le ahead next => ?_⟩
        obtain ⟨inner, rfl⟩ :=
          Nat.exists_eq_add_of_le' (Nat.le_trans (Nat.le_add_left 1 _) le)
        exact ⟨inner, rfl, holds inner (Nat.le_of_succ_le_succ le) ahead next⟩
  complete closed known bare holds := by
    obtain ⟨shallower, rfl, holds⟩ := holds
    exact (below shallower rfl).complete closed known bare holds
  fails {place _ _ _} closed known outcome := by
    cases depth with
    | zero =>
        cases outcome
        exact ⟨_, _, rfl, Nat.le_refl _, fun misfit => (misfit _ rfl).elim⟩
    | succ shallower =>
        obtain ⟨fault, blamed, equal, le, viable⟩ :=
          (below shallower rfl).fails closed known outcome
        refine ⟨fault, blamed, equal, le, fun misfit => ?_⟩
        obtain ⟨covered, rest, split, nonempty, count, completed⟩ := viable misfit
        refine ⟨covered, rest, split, nonempty, count, completed.imp_right ?_⟩
        rintro ⟨completion, plain, holds⟩
        refine ⟨completion, plain, fun deeper lt ahead bare => ?_⟩
        obtain ⟨inner, rfl⟩ := Nat.exists_eq_add_of_le' (Nat.zero_lt_of_lt lt)
        obtain ⟨value, holds⟩ := holds inner (Nat.lt_of_succ_lt_succ lt) ahead bare
        exact ⟨value, inner, rfl, holds⟩
  agrees {_ _ _ _ _ _ _ depth' _ _ _ _} closed closed' known shares outcome
    outcome' lt := by
    cases depth with
    | zero => cases outcome
    | succ shallower =>
        cases depth' with
        | zero => cases outcome'
        | succ _ =>
            exact (below shallower rfl).agrees closed closed' known shares
              outcome outcome' lt
  blames {_ _ _ _ _ _ _ depth' _ _ _ _} closed closed' known shares outcome
    outcome' misfit := by
    cases depth with
    | zero =>
        cases outcome
        exact (misfit _ rfl).elim
    | succ shallower =>
        cases depth' with
        | zero => cases outcome'
        | succ _ =>
            exact (below shallower rfl).blames closed closed' known shares outcome
              outcome' misfit

end ReadsFrom

/-! ## Reading one phrase after another -/

namespace Reads

theorem pure (value : α) :
    Reads extentOf depth (Pure.pure value) (Phrase.pure value) .empty where
  toDescribes := .pure value
  reads := .pure value

theorem located {rule : Rule (Extent → α)} {phrase : Phrase (Extent → α)}
    (reads : Reads extentOf depth rule phrase profile) :
    Reads extentOf depth (.located rule) (phrase.located extentOf) profile where
  toDescribes := reads.toDescribes.located
  reads := reads.reads.located

theorem bind {second : α → Rule β} {next : α → Phrase β}
    (reads : Reads extentOf depth rule phrase profile)
    (reads' : ∀ given, Reads extentOf depth (second given) (next given) profile')
    (precedes : profile.Precedes profile') :
    Reads extentOf depth (rule >>= second) (phrase.bind next)
      (profile.append profile') where
  toDescribes := reads.toDescribes.bind (fun given => (reads' given).toDescribes) precedes
  reads := reads.reads.bind (fun given => (reads' given).toDescribes)
    (fun given => (reads' given).reads) (fun _ _ => trivial) precedes

theorem congr (reads : Reads extentOf depth rule phrase profile)
    (same : ∀ depth place value after,
      phrase depth place value after ↔ phrase' depth place value after) :
    Reads extentOf depth rule phrase' profile where
  toDescribes := reads.toDescribes.congr same
  reads := reads.reads.widen (same _ _ _ _).mp (fun _ _ => (same _ _ _ _).mpr)
    (List.Subset.refl _) (List.Subset.refl _)

/-- Reading by a rule for as long as the next token promises another item -/
theorem repeatWhile {item : Rule α} {promises : Lexeme → Bool} {promised : List Sign}
    (reads : Reads extentOf depth item phrase profile)
    (isRepeated : Grammar.IsRepeated item) (nonempty : profile.nullable = false)
    (promises_iff : ∀ found, promises found = true ↔ Shown promised found)
    (first : ∀ found, Shown profile.first found → Shown promised found)
    (apart : Apart profile.tails profile.first = true) :
    Reads extentOf depth (.repeatWhile promises item) phrase.star
      (profile.star promised) where
  toDescribes := reads.toDescribes.star nonempty promised
  reads := by
    have describes := reads.toDescribes.star nonempty promised
    -- by the number of tokens left, of which every item takes one at least
    have each : ∀ count,
        ReadsFrom extentOf (fun place => place.ahead.length < count) depth
        (.repeatWhile promises item) phrase.star (profile.star promised) := by
      intro count
      induction count with
      | zero => exact .nowhere fun place => Nat.not_lt_zero _
      | succ count induction =>
          refine .of_readAt_eq (.peek fun found => ?_) fun closed =>
            Rule.readAt_repeatWhile isRepeated closed
          by_cases going : promises found = true
          · rw [if_pos going]
            have shorter : ∀ {terms place given middle},
                (place.ahead.length < count + 1 ∧ place.current = found) →
                  item.readAt terms depth place = .ok (given, middle) →
                    middle.ahead.length < count := fun known outcome =>
              Nat.lt_of_lt_of_le (isRepeated.fewer outcome) (Nat.le_of_lt_succ known.1)
            have next : profile.Precedes (profile.star promised) :=
              ⟨apart, by simp [Profile.star]⟩
            refine ((reads.reads.weaken fun _ _ => trivial).bind
              (fun value => (describes.map (value :: ·)))
                (fun value => induction.map (value :: ·))
              shorter next).widen ?_ ?_ ?_ ?_
            · rintro depth place values after
                ⟨value, middle, holds, values, _, rest, rfl, rfl⟩
              exact ⟨middle, holds, rest⟩
            · rintro place values after ⟨_, rfl⟩ bare holds
              cases values with
              | nil =>
                  cases holds
                  refine (bare ?_).elim
                  simp only [Profile.star, Shown.append_iff]
                  exact .inl ((promises_iff _).mp going)
              | cons value values =>
                  obtain ⟨middle, holds, rest⟩ := holds
                  exact ⟨value, middle, holds, values, _, rest, rfl, rfl⟩
            · simp [Profile.append, Profile.star]
            · simp [Profile.append, Profile.star]
          · rw [if_neg going]
            refine (ReadsFrom.pure []).widen ?_ ?_ (by simp [Profile.empty])
              (by simp [Profile.empty])
            · rintro depth place values after ⟨rfl, rfl⟩
              rfl
            · rintro place values after ⟨_, rfl⟩ bare holds
              cases values with
              | nil => exact ⟨rfl, holds⟩
              | cons value values =>
                  obtain ⟨middle, holds, rest⟩ := holds
                  rcases reads.starts holds with ⟨nullable, _⟩ | ⟨shown, _⟩
                  · simp [nonempty] at nullable
                  · exact (going ((promises_iff _).mpr (first _ shown))).elim
    exact .of_each each fun place => ⟨_, Nat.lt_succ_self _⟩

end Reads

end GraphQL
