import GraphQL.Proofs.Lexing.Places
import GraphQL.Proofs.Lexing.Tiling

/-! Where a token cannot be read, the fault lies at a character of the text
or at its end. -/

namespace GraphQL

open Text

/-! ## Numbers -/

namespace Number

/-- A part of a number fails at some character of what it is read from. -/
def Halts (part : Cut → Except Misread Cut) : Prop :=
  ∀ ⦃cut misread⦄, part cut = .error misread →
    ∃ covered, misread.text = cut.text ++ covered ∧ covered <+: cut.rest

variable {part next : Cut → Except Misread Cut}

theorem Halts.bind (first : Local part) (halts : Halts part) (halts' : Halts next) :
    Halts fun cut => part cut >>= next := by
  intro cut misread outcome
  rcases bind_eq_error.mp outcome with outcome | ⟨given, middle, outcome⟩
  · exact halts outcome
  · obtain ⟨before, text, rest, _⟩ := first middle
    obtain ⟨behind, text', isPrefix⟩ := halts' outcome
    refine ⟨before ++ behind, by rw [text', text, List.append_assoc], ?_⟩
    rw [rest]
    exact (List.prefix_append_right_inj before).mpr isPrefix

theorem halts_nothing : Halts .ok := nofun

theorem Optional.halts {signs : List Char} (optional : Optional signs part next)
    (following : Halts next) :
    Halts part := by
  rintro ⟨text, rest⟩ misread outcome
  by_cases missing : ∀ char ∈ rest.head?, signs.contains char = false
  · rw [optional.absent text rest missing] at outcome
    cases outcome
  · cases rest with
    | nil => exact (missing nofun).elim
    | cons char rest =>
        have member : char ∈ signs := by simpa using missing
        rw [optional.present char member] at outcome
        obtain ⟨covered, text', isPrefix⟩ := following outcome
        exact ⟨char :: covered, by
          simpa using text', List.cons_prefix_cons.mpr ⟨rfl, isPrefix⟩⟩

theorem halts_digits : Halts digits := by
  intro cut misread outcome
  unfold digits at outcome
  split at outcome
  next => cases outcome
  next =>
    cases outcome
    exact ⟨[], (List.append_nil _).symm, List.nil_prefix⟩

theorem halts_integerPart : Halts integerPart := by
  rintro ⟨text, rest⟩ misread outcome
  by_cases zero : rest.head? = some '0'
  · obtain ⟨rest, rfl⟩ := List.head?_eq_some_iff.mp zero
    rw [integerPart_zero] at outcome
    split at outcome
    next =>
      cases outcome
      exact ⟨['0'], rfl, List.prefix_append ['0'] rest⟩
    next => cases outcome
  · rw [integerPart_of_ne zero] at outcome
    exact halts_digits outcome

theorem halts_ended : Halts ended := by
  rintro ⟨text, rest⟩ misread outcome
  rw [ended_eq] at outcome
  split at outcome
  next =>
    cases outcome
    exact ⟨[], (List.append_nil _).symm, List.nil_prefix⟩
  next => cases outcome

theorem halts_opening : Halts opening :=
  (optional_sign.halts halts_nothing).bind local_sign halts_integerPart

theorem halts_tail : Halts tail := by
  have exponentPart : Halts exponentPart :=
    optional_exponentPart.halts
      ((optional_exponentSign.halts halts_nothing).bind local_exponentSign halts_digits)
  exact (optional_fractionPart.halts halts_digits).bind local_fractionPart
    (exponentPart.bind local_exponentPart halts_ended)

end Number

variable {text : List Char} {misread : Misread}

open Number in
theorem readNumber_halts (outcome : readNumber text = .error misread) :
    misread.text <+: text := by
  obtain ⟨covered, text', isPrefix⟩ :=
    (halts_opening.bind local_opening halts_tail) (readNumber_eq_error.mp outcome)
  rw [text']
  exact isPrefix

/-! ## Strings -/

theorem precede_eq_error {covered meant : List Char}
    {outcome : Except Misread StringContent} :
    StringContent.precede covered meant outcome = .error misread ↔
      ∃ inner, outcome = .error inner ∧ misread = inner.after covered := by
  cases outcome with
  | error inner => simp [StringContent.precede, eq_comm]
  | ok content => simp [StringContent.precede]

theorem Misread.after_prefix {inner : Misread} (covered : List Char)
    (isPrefix : inner.text <+: text) :
    (inner.after covered).text <+: covered ++ text :=
  (List.prefix_append_right_inj covered).mpr isPrefix

theorem readEscape_halts (outcome : readEscape text = .error misread) :
    misread.text <+: '\\' :: text := by
  cases text with
  | nil =>
      cases outcome
      exact List.prefix_refl _
  | cons letter text =>
      simp only [readEscape] at outcome
      repeat' split at outcome
      all_goals
        cases outcome
      all_goals exact List.nil_prefix

theorem readQuoted_halts {escaped : Nat}
    (outcome : readQuoted escaped text = .error misread) :
    misread.text <+: text := by
  induction text generalizing escaped misread with
  | nil =>
      cases outcome
      exact List.prefix_refl _
  | cons char text induction =>
      have precedes : ∀ {escaped meant misread},
          StringContent.precede [char] meant (readQuoted escaped text) = .error misread →
            misread.text <+: char :: text := by
        intro escaped meant misread outcome
        obtain ⟨inner, behind, rfl⟩ := precede_eq_error.mp outcome
        exact Misread.after_prefix [char] (induction behind)
      cases escaped with
      | succ escaped => exact precedes outcome
      | zero =>
          simp only [readQuoted] at outcome
          split at outcome
          next => cases outcome
          next =>
          split at outcome
          next =>
            cases outcome
            exact List.nil_prefix
          next =>
          split at outcome
          next isBackslash =>
            subst isBackslash
            split at outcome
            next => exact precedes outcome
            next escape =>
              cases outcome
              exact readEscape_halts escape
          next =>
          split at outcome
          next =>
            cases outcome
            exact List.nil_prefix
          next => exact precedes outcome

theorem readBlock_halts (outcome : readBlock text = .error misread) :
    misread.text <+: text := by
  fun_induction readBlock text generalizing misread with
  | case1 =>
      cases outcome
      exact List.prefix_refl _
  | case2 => cases outcome
  | case3 rest induction =>
      obtain ⟨inner, behind, rfl⟩ := precede_eq_error.mp outcome
      exact Misread.after_prefix ('\\' :: tripleQuote) (induction behind)
  | case4 =>
      cases outcome
      exact List.nil_prefix
  | case5 char rest _ _ _ induction =>
      obtain ⟨inner, behind, rfl⟩ := precede_eq_error.mp outcome
      exact Misread.after_prefix [char] (induction behind)

/-! ## Tokens -/

theorem readToken_halts (outcome : readToken text = .error misread) :
    misread.text <+: text := by
  rw [readToken.eq_def] at outcome
  split at outcome
  next => cases outcome
  next => cases outcome
  next rest =>
    unfold readBlockString at outcome
    split at outcome
    next => cases outcome
    next block =>
      cases outcome
      exact Misread.after_prefix tripleQuote (readBlock_halts block)
  next rest _ =>
    unfold readString at outcome
    split at outcome
    next => cases outcome
    next quoted =>
      cases outcome
      exact Misread.after_prefix ['"'] (readQuoted_halts quoted)
  next => cases outcome
  next =>
    split at outcome
    next => cases outcome
    next =>
    split at outcome
    next => exact readNumber_halts outcome
    next =>
    split at outcome
    next => cases outcome
    next =>
      cases outcome
      exact List.nil_prefix

/-! ## Sources -/

section

variable {source : Source} {tokens : List Token} {error : LexicalError}

namespace Cursor

variable {cursor : Cursor} {passed : List Char}

theorem next_eq_error : cursor.next = .error error ↔
    ∃ misread, readToken (cursor.rest.dropWhile isIgnored) = .error misread ∧
      error = ⟨misread.fault, (cursor.tokenStart.after misread.text).offset⟩ := by
  unfold next
  cases readToken (cursor.rest.dropWhile isIgnored) with
  | ok reading => simp
  | error misread =>
      constructor
      · intro outcome
        cases outcome
        exact ⟨misread, rfl, rfl⟩
      · rintro ⟨_, equal, rfl⟩
        cases equal
        rfl

/-- Walking to a fault at once leads to where reading had to stop. -/
theorem Located.tokenStart_after (located : cursor.Located source passed)
    (outcome : readToken (cursor.rest.dropWhile isIgnored) = .error misread) :
    ∃ before rest, source.chars = before ++ rest ∧
      cursor.tokenStart.after misread.text = Position.origin.after before := by
  obtain ⟨before, whole, start, uncut⟩ := located.tokenStart
  obtain ⟨rest, equal⟩ := readToken_halts outcome
  rw [← equal] at whole uncut
  refine ⟨before ++ misread.text, rest, ?_, ?_⟩
  · rw [whole, List.append_assoc]
  · rw [start, Position.after_append uncut.of_append]

theorem Yields.isBoundary (yields : cursor.Yields tokens (some error))
    (located : cursor.Located source passed) :
    source.IsBoundary error.offset := by
  generalize ended : some error = ending at yields
  induction yields generalizing passed with
  | fault next =>
      cases ended
      obtain ⟨misread, outcome, rfl⟩ := next_eq_error.mp next
      obtain ⟨before, rest, whole, position⟩ := located.tokenStart_after outcome
      refine ⟨before, rest, whole, ?_⟩
      rw [position, Position.after, Position.origin, Nat.zero_add]
  | last => cases ended
  | more next _ _ induction =>
      obtain ⟨_, _, located⟩ := located.next next
      exact induction located ended

end Cursor

theorem Source.Yields.isBoundary (yields : source.Yields tokens (some error)) :
    source.IsBoundary error.offset := by
  obtain ⟨rest, _, yields⟩ := yields
  exact yields.isBoundary (Cursor.located_start source)

end

end GraphQL
