import GraphQL.Proofs.Reading.Document

/-! Reading all the tokens of a source.

What takes up a whole source stands between the tokens that begin and end it. -/

namespace GraphQL

variable {α : Type}

/-- What comes of reading by a rule behind the token that begins a source, if the
source is to end there -/
def Rule.readWhole (limit bound : Nat) (rule : Rule α) (ahead : List Lexeme) :
    Except (Option Failure) α :=
  match rule.readAt (.whole extentBetween limit bound) limit ⟨1, ahead⟩ with
  | .ok (value, after) =>
      if after.current = .endOfFile then .ok value
      else .error (some (.grammatical (.expected .endOfFile after.current) after.ordinal))
  | .error failure => .error failure

/-- The tokens between those that begin and end a source, if there are no more than
`bound` in all -/
structure Inner (bound : Nat) (inner : List Lexeme) : Prop where
  few : inner.length + 2 ≤ bound
  unended : .endOfFile ∉ inner

namespace Inner

variable {bound : Nat} {inner : List Lexeme} {after : Place}

theorem closed (inside : Inner bound inner) :
    (⟨1, inner ++ [.endOfFile]⟩ : Place).Closed bound := by
  have few := inside.few
  refine ⟨by simp, ?_⟩
  change 1 + _ ≤ _
  rw [List.length_append, List.length_singleton]
  omega

theorem end_iff (inside : Inner bound inner) {covered : List Lexeme}
    (covers : (⟨1, inner ++ [.endOfFile]⟩ : Place).Covers covered after)
    (nonempty : after.ahead ≠ []) :
    after.current = .endOfFile ↔
      covered = inner ∧ after = ⟨1 + inner.length, [.endOfFile]⟩ := by
  obtain ⟨ordinal, ahead⟩ := after
  obtain ⟨found, rest, rfl⟩ := List.exists_cons_of_ne_nil nonempty
  obtain ⟨split, count⟩ := covers
  constructor
  · intro atEnd
    change found = .endOfFile at atEnd
    subst atEnd
    rcases List.append_eq_append_iff.mp split with ⟨more, equal, equal'⟩ | ⟨more,
      equal, equal'⟩
    · cases more with
      | nil =>
          cases equal'
          rw [List.append_nil] at equal
          subst equal
          exact ⟨rfl, by rw [Place.mk.injEq]; exact ⟨count, rfl⟩⟩
      | cons first more => simp at equal'
    · cases more with
      | nil =>
          cases equal'
          rw [List.append_nil] at equal
          subst equal
          exact ⟨rfl, by rw [Place.mk.injEq]; exact ⟨count, rfl⟩⟩
      | cons first more =>
          cases equal'
          exact (inside.unended (equal ▸ by simp)).elim
  · rintro ⟨_, equal⟩
    cases equal
    rfl

end Inner

namespace Reads

variable {rule : Rule α} {phrase : Phrase α} {profile : Profile} {limit bound : Nat}
variable {inner : List Lexeme} {value : α}

/-- A source is read just if all of it is what the rule reads. -/
theorem readWhole_eq_ok (reads : Reads extentBetween limit rule phrase profile)
    (bare : ¬ Shown profile.tails .endOfFile) (inside : Inner bound inner) :
    rule.readWhole limit bound (inner ++ [.endOfFile]) = .ok value ↔
      phrase.Holds limit 1 inner [.endOfFile] value := by
  have closed := inside.closed
  unfold Rule.readWhole
  constructor
  · intro outcome
    split at outcome
    next found after read =>
      split at outcome
      next atEnd =>
        cases outcome
        obtain ⟨covered, covers, holds⟩ := reads.reads.sound closed trivial read
        have nonempty := (Rule.readAt_closed read closed).ne_nil
        obtain ⟨rfl, rfl⟩ := (inside.end_iff covers nonempty).mp atEnd
        exact holds limit (Nat.le_refl _) _ (.inl rfl)
      next => cases outcome
    next => cases outcome
  · intro holds
    have read : rule.readAt (.whole extentBetween limit bound) limit
        ⟨1, inner ++ [.endOfFile]⟩ =
        .ok (value, ⟨1 + inner.length, [.endOfFile]⟩) :=
      reads.reads.complete closed trivial bare holds
    rw [read]
    exact if_pos rfl

theorem readWhole_grammatical (reads : Reads extentBetween limit rule phrase profile)
    (inside : Inner bound inner) {failure : Option Failure}
    (outcome : rule.readWhole limit bound (inner ++ [.endOfFile]) = .error failure) :
    ∃ fault blamed, failure = some (.grammatical fault blamed) := by
  unfold Rule.readWhole at outcome
  split at outcome
  next =>
    split at outcome
    next => cases outcome
    next =>
      cases outcome
      exact ⟨_, _, rfl⟩
  next read =>
    cases outcome
    obtain ⟨fault, blamed, equal, _⟩ := reads.reads.fails inside.closed trivial read
    exact ⟨fault, blamed, equal⟩

theorem readWhole_ne_none (reads : Reads extentBetween limit rule phrase profile)
    (inside : Inner bound inner) :
    rule.readWhole limit bound (inner ++ [.endOfFile]) ≠ .error none := by
  intro outcome
  obtain ⟨_, _, equal⟩ := reads.readWhole_grammatical inside outcome
  cases equal

/-- What reading a source blames stands behind tokens that could go on. -/
theorem readWhole_fails (reads : Reads extentBetween limit rule phrase profile)
    (unbarred : ¬ Shown profile.barred .endOfFile)
    (plain : ∀ lexeme ∈ profile.sample, lexeme.isPlain = true)
    (inside : Inner bound inner) {failure : Option Failure}
    (outcome : rule.readWhole limit bound (inner ++ [.endOfFile]) = .error failure) :
    ∃ fault blamed, failure = some (.grammatical fault blamed) ∧
      (fault.IsMisfit → ∃ covered rest completion, inner ++ [.endOfFile] =
        covered ++ rest ∧
        rest ≠ [] ∧ blamed = 1 + covered.length ∧
        (∀ lexeme ∈ completion, lexeme.isPlain = true) ∧
          ∀ deeper, limit < deeper →
            ∃ value, phrase.Holds deeper 1
              (covered ++ completion) [.endOfFile] value) := by
  have closed := inside.closed
  unfold Rule.readWhole at outcome
  split at outcome
  next found after read =>
    split at outcome
    next => cases outcome
    next notEnd =>
      cases outcome
      obtain ⟨covered, covers, holds⟩ := reads.reads.sound closed trivial read
      have nonempty := (Rule.readAt_closed read closed).ne_nil
      refine ⟨_, _, rfl, fun _ =>
        ⟨covered, after.ahead, [], covers.1, nonempty, covers.2, nofun, ?_⟩⟩
      intro deeper lt
      rw [List.append_nil]
      exact ⟨found, holds deeper (Nat.le_of_lt lt) _ (.inr unbarred)⟩
  next read =>
    cases outcome
    obtain ⟨fault, blamed, rfl, le, viable⟩ := reads.reads.fails closed trivial read
    refine ⟨fault, blamed, rfl, fun misfit => ?_⟩
    obtain ⟨covered, rest, split, nonempty, count, completed⟩ := viable misfit
    rcases completed with rfl | ⟨completion, plain, holds⟩
    · refine ⟨[], rest, profile.sample, split, nonempty, count, plain,
        fun deeper lt => ?_⟩
      exact reads.sample 1 (Nat.zero_lt_of_lt lt) unbarred
    · refine ⟨covered, rest, completion, split, nonempty, count, plain,
        fun deeper lt => ?_⟩
      exact holds deeper lt _ unbarred

/-- Nothing is blamed of what a source shares with one that is read. -/
theorem readWhole_blames (reads : Reads extentBetween limit rule phrase profile)
    {limit' bound' stop blamed : Nat} {inner' : List Lexeme} {fault : GrammarFault}
    (inside : Inner bound inner) (inside' : Inner bound' inner')
    (shares : (inner' ++ [Lexeme.endOfFile]).take stop =
      (inner ++ [Lexeme.endOfFile]).take stop)
    (outcome : rule.readWhole limit bound (inner ++ [.endOfFile]) =
      .error (some (.grammatical fault blamed)))
    (outcome' : rule.readWhole limit' bound' (inner' ++ [.endOfFile]) = .ok value)
    (misfit : fault.IsMisfit) : 1 + stop ≤ blamed := by
  have closed := inside.closed
  have closed' := inside'.closed
  have shares : (⟨1, inner ++ [.endOfFile]⟩ : Place).Shares ⟨1, inner' ++ [.endOfFile]⟩
      (1 + stop) := by
    refine ⟨rfl, ?_⟩
    rw [Nat.add_sub_cancel_left]
    exact shares
  unfold Rule.readWhole at outcome outcome'
  split at outcome'
  next found' after' read' =>
    split at outcome'
    next atEnd =>
      split at outcome
      next found after read =>
        split at outcome
        next => cases outcome
        next notEnd =>
          cases outcome
          apply Nat.le_of_not_lt
          intro lt
          obtain ⟨_, level⟩ :=
            reads.reads.agrees closed closed' trivial shares read read' lt
          obtain ⟨covered, covers⟩ := Rule.readAt_covers read
          obtain ⟨covered', covers'⟩ := Rule.readAt_covers read'
          have same := (shares.behind covers covers' level).current lt
          exact notEnd (same ▸ atEnd)
      next read =>
        cases outcome
        exact reads.reads.blames closed closed' trivial shares read read' misfit
    next => cases outcome'
  next => cases outcome'

end Reads

end GraphQL
