import GraphQL.Proofs.Lexing.Reading

/-! Numbers are read by what they cover and at most one more character. -/

namespace GraphQL

open Text

namespace Number

/-- A part of a number is read off the front of a text, by what it covers and at most
one more character. -/
def Local (part : Cut → Except Misread Cut) : Prop :=
  ∀ ⦃cut after⦄, part cut = .ok after → ∃ covered, after.text = cut.text ++ covered ∧
    cut.rest = covered ++ after.rest ∧ ∀ rest, Follows after.rest rest →
      part ⟨cut.text, covered ++ rest⟩ = .ok ⟨after.text, rest⟩

theorem Local.bind {part next : Cut → Except Misread Cut} (first : Local part)
    (second : Local next) : Local fun cut => part cut >>= next := by
  intro cut after outcome
  obtain ⟨given, middle, outcome⟩ := bind_eq_ok.mp outcome
  obtain ⟨before, text, rest, again⟩ := first middle
  obtain ⟨behind, text', rest', again'⟩ := second outcome
  refine ⟨before ++ behind, by rw [text', text, List.append_assoc],
    by rw [rest, rest', List.append_assoc], fun other follows => ?_⟩
  refine bind_eq_ok.mpr ⟨⟨given.text, behind ++ other⟩, ?_, again' _ follows⟩
  rw [List.append_assoc]
  exact again _ (rest' ▸ follows.append behind)

theorem local_nothing : Local .ok := by
  intro cut after outcome
  cases outcome
  exact ⟨[], by simp, rfl, fun _ _ => rfl⟩

/-! ## Parts that may be left out -/

/-- A part that is read only if one of a few characters begins it, and then as
another is behind that -/
structure Optional (signs : List Char) (part next : Cut → Except Misread Cut) : Prop where
  notEnd : ∀ char, isLineEnd char = true → signs.contains char = false
  absent : ∀ text rest, (∀ char ∈ rest.head?, signs.contains char = false) →
    part ⟨text, rest⟩ = .ok ⟨text, rest⟩
  present : ∀ char ∈ signs, ∀ text rest, part ⟨text, char :: rest⟩ =
    next ⟨text ++ [char], rest⟩

theorem optional_sign : Optional ['-'] (fun cut => .ok (sign cut)) .ok where
  notEnd char isEnd := by rcases eq_of_isLineEnd isEnd with rfl | rfl <;> rfl
  absent text rest missing := by
    unfold sign
    split <;> simp_all
  present char member text rest := by
    cases List.mem_singleton.mp member
    rfl

theorem optional_fractionPart : Optional ['.'] fractionPart digits where
  notEnd char isEnd := by rcases eq_of_isLineEnd isEnd with rfl | rfl <;> rfl
  absent text rest missing := by
    unfold fractionPart
    split <;> simp_all
  present char member text rest := by
    cases List.mem_singleton.mp member
    rfl

theorem optional_exponentSign :
    Optional ['+', '-'] (fun cut => .ok (exponentSign cut)) .ok where
  notEnd char isEnd := by rcases eq_of_isLineEnd isEnd with rfl | rfl <;> rfl
  absent text rest missing := by
    unfold exponentSign
    split <;> simp_all
  present char member text rest := by
    simp only [List.mem_cons, List.not_mem_nil, or_false] at member
    rcases member with rfl | rfl <;> rfl

theorem optional_exponentPart :
    Optional ['e', 'E'] exponentPart fun cut => .ok (exponentSign cut) >>= digits where
  notEnd char isEnd := by rcases eq_of_isLineEnd isEnd with rfl | rfl <;> rfl
  absent text rest missing := by
    unfold exponentPart
    split <;> simp_all
  present char member text rest := by
    simp only [List.mem_cons, List.not_mem_nil, or_false] at member
    rcases member with rfl | rfl <;> rfl

theorem Optional.isLocal {signs : List Char} {part next : Cut → Except Misread Cut}
    (optional : Optional signs part next) (following : Local next) : Local part := by
  obtain ⟨notEnd, absent, present⟩ := optional
  rintro ⟨text, rest⟩ after outcome
  by_cases missing : ∀ char ∈ rest.head?, signs.contains char = false
  · rw [absent text rest missing] at outcome
    cases outcome
    exact ⟨[], by
      simp, rfl, fun other follows => absent _ _ (follows.lacks missing notEnd)⟩
  · cases rest with
    | nil => exact (missing nofun).elim
    | cons char rest =>
        have member : char ∈ signs := by simpa using missing
        rw [present char member] at outcome
        obtain ⟨covered, text', rest', again⟩ := following outcome
        refine ⟨char :: covered, by
          simpa using text', congrArg (char :: ·) rest', fun other follows => ?_⟩
        rw [List.cons_append, present char member]
        exact again other follows

theorem local_sign : Local fun cut => .ok (sign cut) :=
  optional_sign.isLocal local_nothing

theorem local_exponentSign : Local fun cut => .ok (exponentSign cut) :=
  optional_exponentSign.isLocal local_nothing

/-! ## Parts that may not -/

theorem local_digits : Local digits := by
  rintro ⟨text, rest⟩ after outcome
  unfold digits at outcome
  split at outcome
  next first =>
    cases outcome
    refine ⟨rest.takeWhile Char.isDigit, rfl, by simp, fun other follows => ?_⟩
    have run := takeWhile_again Char.isDigit rest <|
      follows.lacks (dropWhile_stops Char.isDigit rest) fun char isEnd => by
        rcases eq_of_isLineEnd isEnd with rfl | rfl <;> rfl
    have first' :
        (rest.takeWhile Char.isDigit ++ other).head?.any Char.isDigit = true := by
      cases rest with
      | nil => cases first
      | cons char rest =>
          have isDigit : char.isDigit = true := first
          simp [isDigit]
    rw [digits, if_pos first', run.1, run.2]
  next => cases outcome

theorem integerPart_zero (text rest : List Char) : integerPart ⟨text, '0' :: rest⟩ =
    match rest.head?.filter Char.isDigit with
    | some next => .error ⟨.digitAfterZero next, text ++ ['0']⟩
    | none => .ok ⟨text ++ ['0'], rest⟩ := by
  cases rest with
  | nil => rfl
  | cons char rest =>
      cases isDigit : char.isDigit <;>
        simp [integerPart, isDigit, Cut.push, Option.filter_some]

theorem integerPart_of_ne {text rest : List Char} (other : rest.head? ≠ some '0') :
    integerPart ⟨text, rest⟩ = digits ⟨text, rest⟩ := by
  unfold integerPart
  split <;> simp_all

theorem local_integerPart : Local integerPart := by
  rintro ⟨text, rest⟩ after outcome
  by_cases zero : rest.head? = some '0'
  · obtain ⟨rest, rfl⟩ := List.head?_eq_some_iff.mp zero
    rw [integerPart_zero] at outcome
    split at outcome
    next => cases outcome
    next missing =>
      cases outcome
      have missing : ∀ char ∈ rest.head?, char.isDigit = false := by
        simpa using Option.filter_eq_none_iff.mp missing
      refine ⟨['0'], rfl, rfl, fun other follows => ?_⟩
      have missing' := follows.lacks missing fun char isEnd => by
        rcases eq_of_isLineEnd isEnd with rfl | rfl <;> rfl
      rw [List.cons_append, List.nil_append, integerPart_zero,
        Option.filter_eq_none_iff.mpr fun char first => by simp [missing' char first]]
  · rw [integerPart_of_ne zero] at outcome
    obtain ⟨covered, text', rest', again⟩ := local_digits outcome
    refine ⟨covered, text', rest', fun other follows => ?_⟩
    -- Digits are covered, of which the first is not a zero.
    have first : (covered ++ other).head? ≠ some '0' := by
      cases covered with
      | nil => cases again [] (.inr breaks_nil)
      | cons char covered =>
          intro first
          apply zero
          change rest = _ at rest'
          rw [rest']
          exact first
    rw [integerPart_of_ne first]
    exact again other follows

theorem local_fractionPart : Local fractionPart :=
  optional_fractionPart.isLocal local_digits

theorem local_exponentPart : Local exponentPart :=
  optional_exponentPart.isLocal (local_exponentSign.bind local_digits)

theorem ended_eq (text rest : List Char) : ended ⟨text, rest⟩ =
    match rest.head?.filter (fun char => char == '.' || isNameStart char) with
    | some next => .error ⟨.digitExpected (some next), text⟩
    | none => .ok ⟨text, rest⟩ := by
  cases rest with
  | nil => rfl
  | cons char rest =>
      cases goesOn : (char == '.' || isNameStart char) <;>
        simp [ended, goesOn, Option.filter_some]

theorem local_ended : Local ended := by
  rintro ⟨text, rest⟩ after outcome
  rw [ended_eq] at outcome
  split at outcome
  next => cases outcome
  next missing =>
    cases outcome
    have missing := Option.filter_eq_none_iff.mp missing
    refine ⟨[], by simp, rfl, fun other follows => ?_⟩
    have missing' : ∀ char ∈ other.head?, (char == '.' || isNameStart char) = false :=
      follows.lacks (by simpa using missing) fun char isEnd => by
        rcases eq_of_isLineEnd isEnd with rfl | rfl <;> rfl
    rw [List.nil_append, ended_eq, Option.filter_eq_none_iff.mpr fun char first => by
      simp [missing' char first]]

def tail (cut : Cut) : Except Misread Cut :=
  fractionPart cut >>= fun cut => exponentPart cut >>= ended

theorem local_tail : Local tail :=
  local_fractionPart.bind (local_exponentPart.bind local_ended)

def opening (cut : Cut) : Except Misread Cut :=
  .ok (sign cut) >>= integerPart

theorem local_opening : Local opening := local_sign.bind local_integerPart

/-- The number with the given integer part, once all of it has been taken -/
def built (integer whole : Cut) : Reading :=
  ⟨if whole.text = integer.text then .integer (String.ofList whole.text)
    else .float (String.ofList whole.text),
    whole.text, whole.rest⟩

theorem readNumber_eq (text : List Char) : readNumber text =
    opening ⟨[], text⟩ >>= fun integer => tail integer >>=
      fun whole => .ok (built integer whole) := by
  simp only [readNumber, tail, bind_assoc]
  rfl

/-- A number cannot be read just if one of its parts cannot. -/
theorem readNumber_eq_error {text : List Char} {misread : Misread} :
    readNumber text = .error misread ↔ opening ⟨[], text⟩ >>= tail = .error misread := by
  simp only [readNumber_eq, bind_eq_error, reduceCtorEq, and_false,
    exists_false, or_false]

end Number

open Number in
theorem readNumber_covers {text : List Char} {reading : Reading}
    (outcome : readNumber text = .ok reading) :
    reading.Covers readNumber text ∧
      (reading.lexeme = .integer (String.ofList reading.text) ∨
      reading.lexeme = .float (String.ofList reading.text)) := by
  rw [readNumber_eq] at outcome
  obtain ⟨integer, first, outcome⟩ := bind_eq_ok.mp outcome
  obtain ⟨whole, second, outcome⟩ := bind_eq_ok.mp outcome
  cases outcome
  obtain ⟨before, text', rest', again⟩ := local_opening first
  obtain ⟨behind, text'', rest'', again'⟩ := local_tail second
  have covered : whole.text = before ++ behind := by rw [text'', text']; rfl
  refine ⟨⟨?_, fun {rest} follows => ?_⟩, ?_⟩
  · change text = whole.text ++ whole.rest
    rw [covered, List.append_assoc, ← rest'']
    exact rest'
  · have first' := again (behind ++ rest) (rest'' ▸ Follows.append follows behind)
    change readNumber (whole.text ++ rest) = .ok { built integer whole with rest }
    rw [readNumber_eq, covered, List.append_assoc]
    exact bind_eq_ok.mpr ⟨_, first', bind_eq_ok.mpr ⟨_, again' rest follows, rfl⟩⟩
  · change (if _ then _ else _) = _ ∨ (if _ then _ else _) = _
    split
    · exact .inl rfl
    · exact .inr rfl

end GraphQL
