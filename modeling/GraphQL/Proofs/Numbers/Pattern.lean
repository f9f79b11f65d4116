import GraphQL.Proofs.Lexing.Number
import Mathlib.Computability.RegularExpressions
import Mathlib.Tactic.IntervalCases

/-! The regular expression for numbers, and what matches it.

Each part of a number is read just if a text that matches its own expression stands in
front, with nothing behind that would continue it. Where a part cannot be read, what has
been taken is the longest text that could still have become one. -/

namespace GraphQL

namespace Number

/-! ## The expression -/

def oneOf : List Char → RegularExpression Char
  | [] => 0
  | char :: chars => RegularExpression.char char + oneOf chars

def perhaps (part : RegularExpression Char) : RegularExpression Char := 1 + part

def decimalDigit : RegularExpression Char :=
  oneOf ['0', '1', '2', '3', '4', '5', '6', '7', '8', '9']

def decimalDigits : RegularExpression Char := decimalDigit * decimalDigit.star

def integerPattern : RegularExpression Char :=
  RegularExpression.char '0' + oneOf ['1', '2', '3', '4', '5', '6', '7', '8', '9'] *
    decimalDigit.star

def signPattern : RegularExpression Char := perhaps (oneOf ['-'])

def fractionPattern : RegularExpression Char := perhaps (oneOf ['.'] * decimalDigits)

def exponentPattern : RegularExpression Char :=
  perhaps (oneOf ['e', 'E'] * perhaps (oneOf ['+', '-']) * decimalDigits)

/-- `-?(0|[1-9][0-9]*)([.][0-9]+)?([eE][+-]?[0-9]+)?` -/
def pattern : RegularExpression Char :=
  signPattern * integerPattern * fractionPattern * exponentPattern

example : pattern.rmatch ['-', '1', '0', '.', '5', 'E', '+', '7'] = true := by decide

variable {text covered : List Char} {char : Char}

theorem mem_oneOf {chars : List Char} :
    text ∈ (oneOf chars).matches' ↔ ∃ char ∈ chars, text = [char] := by
  induction chars with
  | nil => simp [oneOf]
  | cons char chars induction =>
      rw [oneOf, RegularExpression.matches'_add, Language.mem_add, induction,
        List.exists_mem_cons_iff]
      rfl

theorem mem_perhaps {part : RegularExpression Char} :
    text ∈ (perhaps part).matches' ↔ text = [] ∨ text ∈ part.matches' := by
  rw [perhaps, RegularExpression.matches'_add, Language.mem_add]
  rfl

theorem isDigit_iff : char.isDigit = true ↔
    char ∈ ['0', '1', '2', '3', '4', '5', '6', '7', '8', '9'] := by
  constructor
  · intro isDigit
    simp only [Char.isDigit, Bool.and_eq_true, decide_eq_true_eq] at isDigit
    have between : 48 ≤ char.toNat ∧ char.toNat ≤ 57 := isDigit
    rw [← Char.ofNat_toNat char]
    generalize char.toNat = number at between
    obtain ⟨least, greatest⟩ := between
    interval_cases number <;> decide
  · intro member
    simp only [List.mem_cons, List.not_mem_nil, or_false] at member
    rcases member with rfl | rfl | rfl | rfl | rfl | rfl | rfl | rfl | rfl | rfl <;> rfl

theorem mem_decimalDigit :
    text ∈ decimalDigit.matches' ↔ ∃ char, text = [char] ∧ char.isDigit = true := by
  rw [decimalDigit, mem_oneOf]
  exact exists_congr fun char => by rw [isDigit_iff, and_comm]

theorem mem_star_decimalDigit :
    text ∈ decimalDigit.star.matches' ↔ ∀ char ∈ text, char.isDigit = true := by
  rw [RegularExpression.matches'_star, Language.mem_kstar]
  constructor
  · rintro ⟨parts, rfl, each⟩ char member
    obtain ⟨part, among, inside⟩ := List.mem_flatten.mp member
    obtain ⟨digit, rfl, isDigit⟩ := mem_decimalDigit.mp (each part among)
    rwa [List.mem_singleton.mp inside]
  · intro all
    refine ⟨text.map ([·]), by
      rw [← List.flatMap_def, List.flatMap_singleton'], fun part among => ?_⟩
    obtain ⟨char, member, rfl⟩ := List.mem_map.mp among
    exact mem_decimalDigit.mpr ⟨char, rfl, all char member⟩

theorem mem_decimalDigits :
    text ∈ decimalDigits.matches' ↔ text ≠ [] ∧ ∀ char ∈ text, char.isDigit = true := by
  rw [decimalDigits, RegularExpression.matches'_mul, Language.mem_mul]
  constructor
  · rintro ⟨_, first, more, others, rfl⟩
    obtain ⟨char, rfl, isDigit⟩ := mem_decimalDigit.mp first
    exact ⟨List.cons_ne_nil _ _,
      List.forall_mem_cons.mpr ⟨isDigit, mem_star_decimalDigit.mp others⟩⟩
  · rintro ⟨nonempty, all⟩
    obtain ⟨char, more, rfl⟩ := List.exists_cons_of_ne_nil nonempty
    obtain ⟨isDigit, others⟩ := List.forall_mem_cons.mp all
    exact ⟨[char], mem_decimalDigit.mpr ⟨char, rfl, isDigit⟩, more,
      mem_star_decimalDigit.mpr others, rfl⟩

theorem zero_mem_decimalDigits : ['0'] ∈ decimalDigits.matches' :=
  mem_decimalDigits.mpr ⟨List.cons_ne_nil _ _, List.forall_mem_singleton.mpr rfl⟩

theorem mem_integerPattern : text ∈ integerPattern.matches' ↔
    text = ['0'] ∨ text.head? ≠ some '0' ∧ text ∈ decimalDigits.matches' := by
  rw [integerPattern, RegularExpression.matches'_add, RegularExpression.matches'_mul,
    Language.mem_add, Language.mem_mul, mem_decimalDigits]
  refine or_congr Iff.rfl ⟨?_, ?_⟩
  · rintro ⟨_, first, more, others, rfl⟩
    obtain ⟨char, member, rfl⟩ := mem_oneOf.mp first
    have isDigit : char.isDigit = true := isDigit_iff.mpr (List.mem_cons_of_mem _ member)
    refine ⟨?_, List.cons_ne_nil _ _,
      List.forall_mem_cons.mpr ⟨isDigit, mem_star_decimalDigit.mp others⟩⟩
    rintro ⟨⟩
    revert member
    decide
  · rintro ⟨other, nonempty, all⟩
    obtain ⟨char, more, rfl⟩ := List.exists_cons_of_ne_nil nonempty
    obtain ⟨isDigit, others⟩ := List.forall_mem_cons.mp all
    have notZero : char ≠ '0' := fun same => other (congrArg Option.some same)
    have member := (List.mem_cons.mp (isDigit_iff.mp isDigit)).resolve_left notZero
    exact ⟨[char], mem_oneOf.mpr ⟨char, member, rfl⟩, more,
      mem_star_decimalDigit.mpr others, rfl⟩

theorem ne_nil_of_mem_integerPattern (written : text ∈ integerPattern.matches') :
    text ≠ [] := by
  rcases mem_integerPattern.mp written with rfl | ⟨_, digits⟩
  · exact List.cons_ne_nil _ _
  · exact (mem_decimalDigits.mp digits).1

theorem isDigit_of_mem_integerPattern (written : text ∈ integerPattern.matches') :
    ∀ char ∈ text, char.isDigit = true := by
  rcases mem_integerPattern.mp written with rfl | ⟨_, digits⟩
  · exact List.forall_mem_singleton.mpr rfl
  · exact (mem_decimalDigits.mp digits).2

theorem mem_signPattern : text ∈ signPattern.matches' ↔ text = [] ∨ text = ['-'] := by
  rw [signPattern, mem_perhaps, mem_oneOf]
  simp

theorem mem_fractionPattern : text ∈ fractionPattern.matches' ↔
    text = [] ∨ ∃ digits ∈ decimalDigits.matches', text = '.' :: digits := by
  rw [fractionPattern, mem_perhaps, RegularExpression.matches'_mul, Language.mem_mul]
  refine or_congr Iff.rfl ⟨?_, ?_⟩
  · rintro ⟨_, point, digits, written, rfl⟩
    obtain ⟨char, member, rfl⟩ := mem_oneOf.mp point
    obtain rfl := List.mem_singleton.mp member
    exact ⟨digits, written, rfl⟩
  · rintro ⟨digits, written, rfl⟩
    exact ⟨['.'], mem_oneOf.mpr ⟨'.', List.mem_cons_self, rfl⟩, digits, written, rfl⟩

theorem mem_exponentPattern : text ∈ exponentPattern.matches' ↔
    text = [] ∨ ∃ mark ∈ ['e', 'E'], ∃ sign ∈ [[], ['+'], ['-']],
      ∃ digits ∈ decimalDigits.matches', text = mark :: (sign ++ digits) := by
  have signs {sign : List Char} :
      sign ∈ (perhaps (oneOf ['+', '-'])).matches' ↔ sign ∈ [[], ['+'], ['-']] := by
    rw [mem_perhaps, mem_oneOf]
    simp
  rw [exponentPattern, mem_perhaps, RegularExpression.matches'_mul,
    RegularExpression.matches'_mul, mul_assoc, Language.mem_mul]
  refine or_congr Iff.rfl ⟨?_, ?_⟩
  · rintro ⟨_, first, _, ⟨sign, isSign, digits, written, rfl⟩, rfl⟩
    obtain ⟨mark, member, rfl⟩ := mem_oneOf.mp first
    exact ⟨mark, member, sign, signs.mp isSign, digits, written, rfl⟩
  · rintro ⟨mark, member, sign, isSign, digits, written, rfl⟩
    exact ⟨[mark], mem_oneOf.mpr ⟨mark, member, rfl⟩, _,
      ⟨sign, signs.mpr isSign, digits, written, rfl⟩, rfl⟩

/-! ## Reading what matches -/

/-- What may follow a text that characters of some kind would continue -/
def Unless (goesOn : Char → Bool) (rest : List Char) : Prop :=
  ∀ char ∈ rest.head?, goesOn char = false

/-- The part is read just where a word of the language stands, and nothing that goes on.
If it cannot be, it stops behind the longest text that a word could have begun with. -/
structure Recognizes (part : Cut → Except Misread Cut) (language : Language Char)
    (goesOn : Char → Bool) : Prop where
  isLocal : Local part
  complete : ∀ {text covered rest}, covered ∈ language → Unless goesOn rest →
    part ⟨text, covered ++ rest⟩ = .ok ⟨text ++ covered, rest⟩
  sound : ∀ {cut after}, part cut = .ok after →
    ∃ covered ∈ language, after.text = cut.text ++ covered
  sticks : ∀ {text whole misread}, part ⟨text, whole⟩ = .error misread →
    ∃ covered rest, misread.text = text ++ covered ∧ whole = covered ++ rest ∧
      (∃ more, covered ++ more ∈ language) ∧
      ∀ char ∈ rest.head?, ∀ other, ∃ misread, part ⟨text, covered ++ char :: other⟩ =
        .error misread

variable {part next : Cut → Except Misread Cut} {language language' : Language Char}
variable {goesOn goesOn' : Char → Bool}

theorem Recognizes.bind (recognizes : Recognizes part language goesOn)
    (recognizes' : Recognizes next language' goesOn')
    (nonempty : ∃ word, word ∈ language')
    (apart : ∀ word ∈ language', ∀ rest, Unless goesOn' rest →
      Unless goesOn (word ++ rest)) :
    Recognizes (fun cut => part cut >>= next) (language * language') goesOn' where
  isLocal := recognizes.isLocal.bind recognizes'.isLocal
  complete := by
    rintro text _ rest ⟨first, written, second, written', rfl⟩ stops
    refine bind_eq_ok.mpr ⟨⟨text ++ first, second ++ rest⟩, ?_, ?_⟩
    · rw [List.append_assoc]
      exact recognizes.complete written (apart second written' rest stops)
    · rw [recognizes'.complete written' stops, List.append_assoc]
  sound := by
    intro cut after outcome
    obtain ⟨middle, outcome, outcome'⟩ := bind_eq_ok.mp outcome
    obtain ⟨first, written, text⟩ := recognizes.sound outcome
    obtain ⟨second, written', text'⟩ := recognizes'.sound outcome'
    exact ⟨first ++ second, ⟨first, written, second, written', rfl⟩, by
      rw [text', text, List.append_assoc]⟩
  sticks := by
    intro text whole misread outcome
    rcases bind_eq_error.mp outcome with outcome | ⟨⟨text', rest⟩, outcome, outcome'⟩
    · obtain ⟨covered, rest, text', whole, ⟨more, written⟩, again⟩ :=
        recognizes.sticks outcome
      obtain ⟨word, written'⟩ := nonempty
      refine ⟨covered, rest, text', whole, ⟨more ++ word, ?_⟩, fun char first other => ?_⟩
      · exact ⟨covered ++ more, written, word, written', List.append_assoc ..⟩
      · obtain ⟨misread, outcome⟩ := again char first other
        exact ⟨misread, bind_eq_error.mpr (.inl outcome)⟩
    · obtain ⟨before, written, equal⟩ := recognizes.sound outcome
      obtain ⟨before', equal', whole, again⟩ := recognizes.isLocal outcome
      obtain rfl : before = before' := List.append_cancel_left (equal.symm.trans equal')
      obtain ⟨covered, rest', text'', rest, ⟨more, written'⟩, again'⟩ :=
        recognizes'.sticks outcome'
      simp only at equal' whole rest again
      subst equal' whole rest
      refine ⟨before ++ covered, rest', ?_, ?_, ⟨more, before, written, _, written', ?_⟩,
        fun char first other => ?_⟩
      · rw [text'', List.append_assoc]
      · rw [List.append_assoc]
      · rw [List.append_assoc]
      · obtain ⟨misread, outcome'⟩ := again' char first other
        refine ⟨misread, bind_eq_error.mpr (.inr ⟨_, ?_, outcome'⟩)⟩
        have follows : Follows rest' (char :: other) := .inl first.symm
        rw [List.append_assoc]
        exact again _ (follows.append covered)

theorem recognizes_nothing : Recognizes .ok 1 fun _ => false where
  isLocal := local_nothing
  complete := by
    rintro text _ rest ⟨⟩ _
    rw [List.append_nil]
    rfl
  sound := by
    rintro cut _ ⟨⟩
    exact ⟨[], rfl, (List.append_nil _).symm⟩
  sticks := nofun

theorem Optional.recognizes {signs : List Char} (optional : Optional signs part next)
    (recognizes : Recognizes next language goesOn) :
    Recognizes part (1 + (oneOf signs).matches' * language)
      fun char => signs.contains char || goesOn char where
  isLocal := optional.isLocal recognizes.isLocal
  complete := by
    rintro text covered rest written stops
    rcases written with rfl | ⟨_, first, word, written, rfl⟩
    · rw [List.append_nil]
      exact optional.absent text rest fun char first =>
        (Bool.or_eq_false_iff.mp (stops char first)).1
    · obtain ⟨char, member, rfl⟩ := mem_oneOf.mp first
      have stops' : Unless goesOn rest :=
        fun char first => (Bool.or_eq_false_iff.mp (stops char first)).2
      rw [List.append_assoc, List.singleton_append, optional.present char member,
        recognizes.complete written stops', List.append_assoc]
  sound := by
    rintro ⟨text, rest⟩ after outcome
    by_cases missing : ∀ char ∈ rest.head?, signs.contains char = false
    · rw [optional.absent text rest missing] at outcome
      cases outcome
      exact ⟨[], .inl rfl, (List.append_nil _).symm⟩
    · cases rest with
      | nil => exact (missing nofun).elim
      | cons char rest =>
          have member : char ∈ signs := by simpa using missing
          rw [optional.present char member] at outcome
          obtain ⟨word, written, text'⟩ := recognizes.sound outcome
          refine ⟨char :: word,
            .inr ⟨[char], mem_oneOf.mpr ⟨char, member, rfl⟩, word, written, rfl⟩, ?_⟩
          rw [text', List.append_assoc]
          rfl
  sticks := by
    rintro text rest misread outcome
    by_cases missing : ∀ char ∈ rest.head?, signs.contains char = false
    · rw [optional.absent text rest missing] at outcome
      cases outcome
    · cases rest with
      | nil => exact (missing nofun).elim
      | cons char rest =>
          have member : char ∈ signs := by simpa using missing
          rw [optional.present char member] at outcome
          obtain ⟨covered, rest, text', rfl, ⟨more, written⟩, again⟩ :=
            recognizes.sticks outcome
          refine ⟨char :: covered, rest, ?_, rfl,
            ⟨more, .inr ⟨[char], mem_oneOf.mpr ⟨char, member, rfl⟩, _, written, rfl⟩⟩,
            fun next first other => ?_⟩
          · rw [text', List.append_assoc]
            rfl
          · rw [List.cons_append, optional.present char member]
            exact again next first other

theorem digits_eq_ok {rest : List Char} (written : covered ∈ decimalDigits.matches')
    (stops : Unless Char.isDigit rest) :
    digits ⟨text, covered ++ rest⟩ = .ok ⟨text ++ covered, rest⟩ := by
  obtain ⟨nonempty, all⟩ := mem_decimalDigits.mp written
  obtain ⟨char, more, rfl⟩ := List.exists_cons_of_ne_nil nonempty
  have run := takeWhile_again Char.isDigit (char :: more) stops
  rw [List.takeWhile_eq_self_iff.mpr all] at run
  have first : (char :: more ++ rest).head?.any Char.isDigit = true :=
    all char List.mem_cons_self
  rw [digits, if_pos first, run.1, run.2]

theorem digits_eq_error_iff {cut : Cut} {misread : Misread} :
    digits cut = .error misread ↔
      Unless Char.isDigit cut.rest ∧
      misread = ⟨.digitExpected cut.rest.head?, cut.text⟩ := by
  unfold digits
  split
  next first =>
    refine ⟨nofun, fun ⟨stops, _⟩ => ?_⟩
    cases isFirst : cut.rest.head? with
    | none =>
        rw [isFirst] at first
        cases first
    | some char =>
        rw [isFirst, Option.any_some, stops char isFirst] at first
        cases first
  next other =>
    have stops : Unless Char.isDigit cut.rest := by
      intro char first
      rw [Option.mem_def.mp first] at other
      simpa using other
    simp [stops, eq_comm]

theorem recognizes_digits : Recognizes digits decimalDigits.matches' Char.isDigit where
  isLocal := local_digits
  complete := digits_eq_ok
  sound := by
    rintro ⟨text, rest⟩ after outcome
    unfold digits at outcome
    split at outcome
    next first =>
      cases outcome
      refine ⟨_, mem_decimalDigits.mpr ⟨?_, fun _ => List.mem_takeWhile_imp⟩, rfl⟩
      cases rest with
      | nil => cases first
      | cons char rest =>
          have isDigit : char.isDigit = true := first
          simp [isDigit]
    next => cases outcome
  sticks := by
    intro text whole misread outcome
    obtain ⟨stops, rfl⟩ := digits_eq_error_iff.mp outcome
    refine ⟨[], whole, (List.append_nil _).symm, rfl, ⟨['0'], zero_mem_decimalDigits⟩,
      fun char first other => ?_⟩
    refine ⟨_, digits_eq_error_iff.mpr ⟨?_, rfl⟩⟩
    rintro _ ⟨⟩
    exact stops char first

theorem recognizes_integerPart :
    Recognizes integerPart integerPattern.matches' Char.isDigit where
  isLocal := local_integerPart
  complete := by
    intro text covered rest written stops
    rcases mem_integerPattern.mp written with rfl | ⟨other, digits⟩
    · have missing : rest.head?.filter Char.isDigit = none :=
        Option.filter_eq_none_iff.mpr fun char first => by simp [stops char first]
      rw [List.singleton_append, integerPart_zero, missing]
    · obtain ⟨char, more, rfl⟩ :=
        List.exists_cons_of_ne_nil (mem_decimalDigits.mp digits).1
      have other' : (char :: more ++ rest).head? ≠ some '0' := other
      rw [integerPart_of_ne other']
      exact digits_eq_ok digits stops
  sound := by
    rintro ⟨text, rest⟩ after outcome
    by_cases zero : rest.head? = some '0'
    · obtain ⟨rest, rfl⟩ := List.head?_eq_some_iff.mp zero
      rw [integerPart_zero] at outcome
      split at outcome
      next => cases outcome
      next =>
        cases outcome
        exact ⟨['0'], mem_integerPattern.mpr (.inl rfl), rfl⟩
    · rw [integerPart_of_ne zero] at outcome
      obtain ⟨covered, written, text'⟩ := recognizes_digits.sound outcome
      obtain ⟨covered', text'', rest', _⟩ := local_digits outcome
      obtain rfl : covered = covered' := List.append_cancel_left (text'.symm.trans text'')
      refine ⟨covered, mem_integerPattern.mpr (.inr ⟨fun first => zero ?_, written⟩),
        text'⟩
      obtain ⟨more, rfl⟩ := List.head?_eq_some_iff.mp first
      exact (congrArg List.head? rest').trans rfl
  sticks := by
    intro text whole misread outcome
    by_cases zero : whole.head? = some '0'
    · obtain ⟨rest, rfl⟩ := List.head?_eq_some_iff.mp zero
      rw [integerPart_zero] at outcome
      split at outcome
      next next found =>
        cases outcome
        obtain ⟨first, isDigit⟩ := Option.filter_eq_some_iff.mp found
        refine ⟨['0'], rest, rfl, rfl, ⟨[], mem_integerPattern.mpr (.inl rfl)⟩,
          fun char first' other => ?_⟩
        obtain rfl : next = char := Option.some.inj (first.symm.trans first')
        rw [List.singleton_append, integerPart_zero, List.head?_cons, Option.filter_some,
          if_pos isDigit]
        exact ⟨_, rfl⟩
      next => cases outcome
    · rw [integerPart_of_ne zero] at outcome
      obtain ⟨stops, rfl⟩ := digits_eq_error_iff.mp outcome
      refine ⟨[], whole, (List.append_nil _).symm, rfl,
        ⟨['0'], mem_integerPattern.mpr (.inl rfl)⟩, fun char first other => ?_⟩
      have zero' : (char :: other).head? ≠ some '0' := fun same => zero (first.trans same)
      rw [List.nil_append, integerPart_of_ne zero']
      refine ⟨_, digits_eq_error_iff.mpr ⟨?_, rfl⟩⟩
      rintro _ ⟨⟩
      exact stops char first

def runsOn (char : Char) : Bool := char.isDigit || (char == '.' || isNameStart char)

theorem recognizes_ended : Recognizes ended 1 runsOn where
  isLocal := local_ended
  complete := by
    rintro text _ rest ⟨⟩ stops
    have missing :
        rest.head?.filter (fun char => char == '.' || isNameStart char) = none :=
      Option.filter_eq_none_iff.mpr fun char first => by
        simp [(Bool.or_eq_false_iff.mp (stops char first)).2]
    rw [List.nil_append, ended_eq, missing, List.append_nil]
  sound := by
    rintro ⟨text, rest⟩ after outcome
    rw [ended_eq] at outcome
    split at outcome
    next => cases outcome
    next =>
      cases outcome
      exact ⟨[], rfl, (List.append_nil _).symm⟩
  sticks := by
    intro text rest misread outcome
    rw [ended_eq] at outcome
    split at outcome
    next next found =>
      cases outcome
      obtain ⟨first, isWord⟩ := Option.filter_eq_some_iff.mp found
      refine ⟨[], rest, (List.append_nil _).symm, rfl, ⟨[], rfl⟩,
        fun char first' other => ?_⟩
      obtain rfl : next = char := Option.some.inj (first.symm.trans first')
      rw [List.nil_append, ended_eq, List.head?_cons, Option.filter_some, if_pos isWord]
      exact ⟨_, rfl⟩
    next => cases outcome

end Number

end GraphQL
