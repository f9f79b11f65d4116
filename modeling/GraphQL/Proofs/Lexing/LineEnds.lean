import GraphQL.Proofs.Lexing.LineFeeds
import GraphQL.Proofs.Lexing.Misread

/-! Tokens do not depend on the ends of lines.

Only what is ignored, and block strings, go over more than one line. Every other token is
over before the line is, and if it cannot be read, that shows on the same line. -/

namespace GraphQL

open Text

/-- What is read of two texts of which the second is the first with LF at the end of every
line. Faults may differ, but are found at the same place. -/
inductive Agrees {α : Type} (change : α → α) : Except Misread α → Except Misread α → Prop
  | ok (value : α) : Agrees change (.ok value) (.ok (change value))
  | error {misread misread' : Misread} : misread'.text = withLineFeeds misread.text →
      Agrees change (.error misread) (.error misread')

theorem Agrees.of_ok {α : Type} {change : α → α} {value : α} {outcome : Except Misread α}
    (agrees : Agrees change (.ok value) outcome) : outcome = .ok (change value) := by
  cases agrees
  rfl

theorem Agrees.of_error {α : Type} {change : α → α} {misread : Misread}
    {outcome : Except Misread α} (agrees : Agrees change (.error misread) outcome) :
    ∃ misread', outcome = .error misread' ∧
      misread'.text = withLineFeeds misread.text := by
  cases agrees with
  | error same => exact ⟨_, rfl, same⟩

theorem Agrees.bind {α β : Type} {change : α → α} {change' : β → β}
    {outcome outcome' : Except Misread α}
    {next next' : α → Except Misread β} (agrees : Agrees change outcome outcome')
    (following : ∀ value, outcome = .ok value →
      Agrees change' (next value) (next' (change value))) :
    Agrees change' (outcome >>= next) (outcome' >>= next') := by
  cases agrees with
  | ok value => exact following value rfl
  | error text => exact .error text

variable {char : Char} {text rest : List Char}

theorem filter_head?_withLineFeeds {test : Char → Bool} (fails : test '\n' = false)
    (fails' : test '\r' = false)
    (text : List Char) :
    (withLineFeeds text).head?.filter test = text.head?.filter test := by
  rw [head?_withLineFeeds]
  cases text.head? with
  | none => rfl
  | some char =>
      by_cases isReturn : char = '\r'
      · simp [isReturn, toLineFeed, Option.filter_some, fails, fails']
      · rw [Option.map_some, toLineFeed_of_ne isReturn]

/-! ## Numbers -/

namespace Number

def Cut.withLineFeeds (cut : Cut) : Cut :=
  ⟨Text.withLineFeeds cut.text, Text.withLineFeeds cut.rest⟩

/-- A part of a number does not depend on the ends of lines. -/
def Steady (part : Cut → Except Misread Cut) : Prop :=
  ∀ text rest, Agrees Cut.withLineFeeds (part ⟨text, rest⟩)
    (part ⟨Text.withLineFeeds text, Text.withLineFeeds rest⟩)

variable {part next : Cut → Except Misread Cut}

theorem Steady.bind (first : Steady part) (second : Steady next) :
    Steady fun cut => part cut >>= next :=
  fun text rest => (first text rest).bind fun given _ => second given.text given.rest

theorem steady_nothing : Steady .ok := fun text rest => .ok (Cut.mk text rest)

theorem Optional.steady {signs : List Char} (optional : Optional signs part next)
    (following : Steady next) :
    Steady part := by
  intro text rest
  by_cases missing : rest.head?.filter signs.contains = none
  · have missing' :=
      (filter_head?_withLineFeeds (optional.notEnd _ rfl)
        (optional.notEnd _ rfl) rest).trans missing
    rw [optional.absent text rest fun char first =>
      by simpa using Option.filter_eq_none_iff.mp missing char first,
      optional.absent _ _ fun char first => by
        simpa using Option.filter_eq_none_iff.mp missing' char first]
    exact .ok (Cut.mk text rest)
  · obtain ⟨char, present⟩ := Option.ne_none_iff_exists'.mp missing
    obtain ⟨first, isSign⟩ := Option.filter_eq_some_iff.mp present
    obtain ⟨rest, rfl⟩ := List.head?_eq_some_iff.mp first
    have member : char ∈ signs := by simpa using isSign
    have notEnd : isLineEnd char = false := by
      cases isEnd : isLineEnd char with
      | false => rfl
      | true =>
          rw [optional.notEnd char isEnd] at isSign
          cases isSign
    have agrees := following (text ++ [char]) rest
    rw [withLineFeeds_append_oneLine (by simpa using notEnd)] at agrees
    rw [withLineFeeds_cons_of_ne (ne_return notEnd), optional.present char member,
      optional.present char member]
    exact agrees

theorem steady_digits : Steady digits := by
  intro text rest
  have digit : ∀ char ∈ rest.takeWhile Char.isDigit, isLineEnd char = false :=
    fun _ member => not_isLineEnd_of_isDigit (List.mem_takeWhile_imp member)
  have first :
      (Text.withLineFeeds rest).head?.any Char.isDigit = rest.head?.any Char.isDigit := by
    rw [← Option.isSome_filter, ← Option.isSome_filter,
      filter_head?_withLineFeeds rfl rfl]
  rw [digits, digits, first, takeWhile_withLineFeeds rfl, dropWhile_withLineFeeds rfl,
    withLineFeeds_of_oneLine digit, ← withLineFeeds_append_oneLine digit]
  split
  next => exact .ok (Cut.mk _ _)
  next => exact .error rfl

theorem steady_integerPart : Steady integerPart := by
  intro text rest
  by_cases zero : rest.head? = some '0'
  · obtain ⟨rest, rfl⟩ := List.head?_eq_some_iff.mp zero
    rw [withLineFeeds_cons_of_ne (by decide), integerPart_zero, integerPart_zero,
      filter_head?_withLineFeeds rfl rfl,
        ← withLineFeeds_append_oneLine (by simp [isLineEnd])]
    split
    next => exact .error rfl
    next => exact .ok (Cut.mk _ _)
  · have zero' : (Text.withLineFeeds rest).head? ≠ some '0' := by
      intro begins
      obtain ⟨more, equal⟩ := List.head?_eq_some_iff.mp begins
      refine withLineFeeds_ne_append ['0'] (by simp [isLineEnd]) ?_ more equal
      rintro more rfl
      exact zero rfl
    rw [integerPart_of_ne zero, integerPart_of_ne zero']
    exact steady_digits text rest

theorem steady_ended : Steady ended := by
  intro text rest
  rw [ended_eq, ended_eq, filter_head?_withLineFeeds rfl rfl]
  split
  next => exact .error rfl
  next => exact .ok (Cut.mk _ _)

theorem steady_opening : Steady opening :=
  (optional_sign.steady steady_nothing).bind steady_integerPart

theorem steady_tail : Steady tail := by
  have exponentPart : Steady exponentPart :=
    optional_exponentPart.steady
      ((optional_exponentSign.steady steady_nothing).bind steady_digits)
  exact (optional_fractionPart.steady steady_digits).bind (exponentPart.bind steady_ended)

end Number

def Reading.withLineFeeds (reading : Reading) : Reading :=
  { reading with
    text := Text.withLineFeeds reading.text, rest := Text.withLineFeeds reading.rest }

namespace Number

theorem built_withLineFeeds {integer whole : Cut}
    (oneLine : ∀ char ∈ whole.text, isLineEnd char = false)
    (isPrefix : integer.text <+: whole.text) :
    built integer.withLineFeeds whole.withLineFeeds =
      (built integer whole).withLineFeeds := by
  have same : Text.withLineFeeds whole.text = whole.text :=
    withLineFeeds_of_oneLine oneLine
  have same' : Text.withLineFeeds integer.text = integer.text :=
    withLineFeeds_of_oneLine fun char member => oneLine char (isPrefix.subset member)
  rw [built, built, Reading.withLineFeeds, Cut.withLineFeeds,
    Cut.withLineFeeds, same, same']

end Number

open Number in
theorem readNumber_agrees (text : List Char) :
    Agrees Reading.withLineFeeds (readNumber text) (readNumber (withLineFeeds text)) := by
  rw [readNumber_eq, readNumber_eq]
  refine (steady_opening [] text).bind fun integer first => ?_
  refine (steady_tail integer.text integer.rest).bind fun whole second => ?_
  have outcome : readNumber text = .ok (built integer whole) := by
    rw [readNumber_eq]
    exact bind_eq_ok.mpr ⟨integer, first, bind_eq_ok.mpr ⟨whole, second, rfl⟩⟩
  obtain ⟨behind, text', _⟩ := local_tail second
  change Agrees _ _ (.ok (built integer.withLineFeeds whole.withLineFeeds))
  rw [built_withLineFeeds (readNumber_oneLine outcome) ⟨behind, text'.symm⟩]
  exact .ok _

/-! ## Strings -/

def StringContent.withLineFeeds (change : List Char → List Char)
    (content : StringContent) : StringContent :=
  ⟨change content.value, Text.withLineFeeds content.text, Text.withLineFeeds content.rest⟩

theorem Agrees.precede {change : List Char → List Char}
    {covered covered' meant meant' : List Char}
    {outcome outcome' : Except Misread StringContent}
    (agrees : Agrees (StringContent.withLineFeeds change) outcome outcome')
    (read : ∀ content, outcome = .ok content →
      change (meant ++ content.value) = meant' ++ change content.value ∧
      withLineFeeds (covered ++ content.text) = covered' ++ withLineFeeds content.text)
    (misread : ∀ misread, outcome = .error misread →
      withLineFeeds (covered ++ misread.text) = covered' ++ withLineFeeds misread.text) :
    Agrees (StringContent.withLineFeeds change)
      (StringContent.precede covered meant outcome)
      (StringContent.precede covered' meant' outcome') := by
  cases agrees with
  | ok content =>
      obtain ⟨value, text⟩ := read content rfl
      have same : StringContent.withLineFeeds change ⟨meant ++ content.value,
          covered ++ content.text, content.rest⟩ =
          ⟨meant' ++ change content.value, covered' ++ withLineFeeds content.text,
            withLineFeeds content.rest⟩ := by
        rw [StringContent.withLineFeeds, value, text]
      rw [StringContent.precede, StringContent.precede,
        StringContent.withLineFeeds, ← same]
      exact .ok _
  | @error inner inner' text =>
      refine .error ?_
      change covered' ++ inner'.text = withLineFeeds (covered ++ inner.text)
      rw [text, misread inner rfl]

theorem Agrees.precede_oneLine {change : List Char → List Char}
    {covered meant : List Char} {outcome outcome' : Except Misread StringContent}
    (agrees : Agrees (StringContent.withLineFeeds change) outcome outcome')
    (oneLine : ∀ char ∈ covered, isLineEnd char = false)
    (means : ∀ value, change (meant ++ value) = meant ++ change value) :
    Agrees (StringContent.withLineFeeds change)
      (StringContent.precede covered meant outcome)
      (StringContent.precede covered meant outcome') :=
  agrees.precede (fun content _ =>
    ⟨means content.value, withLineFeeds_append_of_oneLine oneLine content.text⟩)
    fun misread _ => withLineFeeds_append_of_oneLine oneLine misread.text

theorem readEscape_eq_ok_iff {given : Char × Nat} :
    readEscape (withLineFeeds text) = .ok given ↔ readEscape text = .ok given := by
  obtain ⟨meant, length⟩ := given
  constructor
  · intro outcome
    obtain ⟨oneLine, again⟩ := readEscape_local outcome
    obtain ⟨rest, equal, _⟩ :=
      exists_of_withLineFeeds_eq_append oneLine (List.take_append_drop length _).symm
    rw [equal]
    exact again rest
  · intro outcome
    obtain ⟨oneLine, again⟩ := readEscape_local outcome
    rw [← List.take_append_drop length text, withLineFeeds_append_of_oneLine oneLine]
    exact again _

theorem readEscape_misread {misread : Misread}
    (outcome : readEscape text = .error misread) :
    misread.text = if text = [] then ['\\'] else [] := by
  cases text with
  | nil =>
      cases outcome
      rfl
  | cons letter text =>
      simp only [readEscape] at outcome
      repeat' split at outcome
      all_goals
        cases outcome
      all_goals rfl

theorem readEscape_agrees (text : List Char) :
    Agrees id (readEscape text) (readEscape (withLineFeeds text)) := by
  cases outcome : readEscape text with
  | ok given =>
      rw [readEscape_eq_ok_iff.mpr outcome]
      exact .ok given
  | error misread =>
      cases outcome' : readEscape (withLineFeeds text) with
      | ok given =>
          rw [readEscape_eq_ok_iff.mp outcome'] at outcome
          cases outcome
      | error misread' =>
          refine .error ?_
          rw [readEscape_misread outcome, readEscape_misread outcome']
          by_cases empty : text = []
          · rw [if_pos empty, if_pos (withLineFeeds_eq_nil.mpr empty)]
            rfl
          · rw [if_neg empty, if_neg fun empty' => empty (withLineFeeds_eq_nil.mp empty')]
            rfl

theorem readQuoted_of_isLineEnd (isEnd : isLineEnd char = true) (rest : List Char) :
    readQuoted 0 (char :: rest) = .error ⟨.unterminatedString, []⟩ := by
  rcases eq_of_isLineEnd isEnd with rfl | rfl <;> rfl

theorem readQuoted_agrees {escaped : Nat}
    (oneLine : ∀ char ∈ text.take escaped, isLineEnd char = false) :
    Agrees (StringContent.withLineFeeds id) (readQuoted escaped text)
      (readQuoted escaped (withLineFeeds text)) := by
  induction text generalizing escaped with
  | nil => exact .error rfl
  | cons char text induction =>
      cases escaped with
      | succ escaped =>
          obtain ⟨notEnd, oneLine⟩ := List.forall_mem_cons.mp oneLine
          rw [withLineFeeds_cons_of_ne (ne_return notEnd)]
          exact (induction oneLine).precede_oneLine (by simpa using notEnd) fun _ => rfl
      | zero =>
          cases isEnd : isLineEnd char with
          | true =>
              obtain ⟨more, equal⟩ := exists_withLineFeeds_cons isEnd text
              rw [equal, readQuoted_of_isLineEnd isEnd, readQuoted_of_isLineEnd rfl]
              exact .error rfl
          | false =>
              have one : ∀ inside ∈ [char], isLineEnd inside = false := by
                simpa using isEnd
              rw [withLineFeeds_cons_of_ne (ne_return isEnd)]
              simp only [readQuoted, isEnd, Bool.false_eq_true, if_false]
              split
              next => exact .ok (StringContent.mk [] ['"'] text)
              next =>
              split
              next =>
                have agrees := readEscape_agrees text
                cases escape : readEscape text with
                | ok given =>
                    rw [readEscape_eq_ok_iff.mpr escape]
                    obtain ⟨oneLine, _⟩ := readEscape_local escape
                    exact (induction oneLine).precede_oneLine one fun _ => rfl
                | error misread =>
                    rw [escape] at agrees
                    obtain ⟨misread', escape', same⟩ := agrees.of_error
                    rw [escape']
                    exact .error same
              next =>
              split
              next => exact .error rfl
              next => exact (induction (by simp)).precede_oneLine one fun _ => rfl

/-! ## Block strings -/

theorem readBlock_cons_withLineFeeds
    (notQuotes : ∀ more, char = '"' → rest ≠ '"' :: '"' :: more)
    (notEscape : ∀ more, char = '\\' → rest ≠ '"' :: '"' :: '"' :: more) :
    readBlock (char :: withLineFeeds rest) =
      if isForbiddenControl char then .error ⟨.invalidStringCharacter char, []⟩
      else StringContent.precede [char] [char] (readBlock (withLineFeeds rest)) := by
  have quotes : ∀ char ∈ tripleQuote, isLineEnd char = false := by
    simp [tripleQuote, isLineEnd]
  apply readBlock_cons
  · intro more isQuote
    exact withLineFeeds_ne_append ['"', '"'] (by simp [isLineEnd])
      (fun more => notQuotes more isQuote) more
  · intro more isBackslash
    exact withLineFeeds_ne_append tripleQuote quotes
      (fun more => notEscape more isBackslash) more

/-- What is read begins with LF just if the text does. -/
def BeginsLike (text : List Char) : Except Misread StringContent → Prop
  | .ok content => (content.value.head? = some '\n' ↔ text.head? = some '\n') ∧
      (content.text.head? = some '\n' ↔ text.head? = some '\n')
  | .error misread => misread.text.head? = some '\n' ↔ text.head? = some '\n'

theorem readBlock_beginsLike (text : List Char) : BeginsLike text (readBlock text) := by
  fun_cases readBlock text with
  | case1 => exact Iff.rfl
  | case2 rest => simp [BeginsLike, tripleQuote]
  | case3 rest =>
      cases readBlock rest <;>
        simp [StringContent.precede, BeginsLike, Misread.after, tripleQuote]
  | case4 char rest notQuotes notEscape forbidden =>
      have notLineFeed : char ≠ '\n' := by
        rintro rfl
        cases forbidden
      simp [BeginsLike, notLineFeed]
  | case5 char rest =>
      cases readBlock rest <;> simp [StringContent.precede, BeginsLike, Misread.after]

theorem readBlock_agrees (text : List Char) :
    Agrees (StringContent.withLineFeeds withLineFeeds) (readBlock text)
      (readBlock (withLineFeeds text)) := by
  have quotes : ∀ char ∈ tripleQuote, isLineEnd char = false := by
    simp [tripleQuote, isLineEnd]
  have escaped : ∀ char ∈ '\\' :: tripleQuote, isLineEnd char = false :=
    List.forall_mem_cons.mpr ⟨rfl, quotes⟩
  fun_induction readBlock text with
  | case1 => exact .error rfl
  | case2 rest =>
      change Agrees _ _ (readBlock (withLineFeeds (tripleQuote ++ rest)))
      rw [withLineFeeds_append_of_oneLine quotes]
      exact .ok (StringContent.mk [] tripleQuote rest)
  | case3 rest induction =>
      change Agrees _ _ (readBlock (withLineFeeds ('\\' :: tripleQuote ++ rest)))
      rw [withLineFeeds_append_of_oneLine escaped]
      exact induction.precede_oneLine escaped fun value =>
        withLineFeeds_append_of_oneLine quotes value
  | case4 char rest notQuotes notEscape forbidden =>
      have other : char ≠ '\r' := by
        rintro rfl
        cases forbidden
      rw [withLineFeeds_cons_of_ne other,
        readBlock_cons_withLineFeeds notQuotes notEscape, if_pos forbidden]
      exact .error rfl
  | case5 char rest notQuotes notEscape allowed induction =>
      by_cases isReturn : char = '\r'
      · subst isReturn
        have begins := readBlock_beginsLike rest
        rw [withLineFeeds_return]
        split
        next paired =>
          rw [← precede_nil (readBlock (withLineFeeds rest))]
          refine induction.precede (fun content read => ?_) fun misread failed => ?_
          · rw [read] at begins
            exact ⟨(withLineFeeds_return _).trans (if_pos (begins.1.mpr paired)),
              (withLineFeeds_return _).trans (if_pos (begins.2.mpr paired))⟩
          · rw [failed] at begins
            exact (withLineFeeds_return _).trans (if_pos (begins.mpr paired))
        next alone =>
          change Agrees _ _
            (StringContent.precede ['\n'] ['\n'] (readBlock (withLineFeeds rest)))
          refine induction.precede (fun content read => ?_) fun misread failed => ?_
          · rw [read] at begins
            exact ⟨(withLineFeeds_return _).trans (if_neg (mt begins.1.mp alone)),
              (withLineFeeds_return _).trans (if_neg (mt begins.2.mp alone))⟩
          · rw [failed] at begins
            exact (withLineFeeds_return _).trans (if_neg (mt begins.mp alone))
      · have unchanged :
            ∀ text, withLineFeeds ([char] ++ text) = [char] ++ withLineFeeds text :=
          fun text => withLineFeeds_cons_of_ne isReturn text
        rw [withLineFeeds_cons_of_ne isReturn,
          readBlock_cons_withLineFeeds notQuotes notEscape, if_neg allowed]
        exact induction.precede (fun content _ =>
          ⟨unchanged content.value, unchanged content.text⟩)
          fun misread _ => unchanged misread.text

/-! ## Tokens -/

theorem readName_withLineFeeds (text : List Char) :
    readName (withLineFeeds text) = (readName text).withLineFeeds := by
  have oneLine :
      withLineFeeds (text.takeWhile isNameContinue) = text.takeWhile isNameContinue :=
    withLineFeeds_of_oneLine (readName_oneLine text)
  rw [readName, takeWhile_withLineFeeds rfl, dropWhile_withLineFeeds rfl]
  simp only [readName, Reading.withLineFeeds, oneLine]

theorem readComment_withLineFeeds (text : List Char) :
    readComment (withLineFeeds text) = (readComment text).withLineFeeds := by
  have words : ∀ char ∈ text.takeWhile (!isLineEnd ·), isLineEnd char = false :=
    fun char member => by simpa using List.mem_takeWhile_imp member
  have oneLine :
      withLineFeeds (text.takeWhile (!isLineEnd ·)) = text.takeWhile (!isLineEnd ·) :=
    withLineFeeds_of_oneLine words
  rw [readComment, takeWhile_withLineFeeds rfl, dropWhile_withLineFeeds rfl]
  simp only [readComment, Reading.withLineFeeds,
    withLineFeeds_cons_of_ne (show '#' ≠ '\r' by decide), oneLine]

theorem readString_agrees (text : List Char) :
    Agrees Reading.withLineFeeds (readString text) (readString (withLineFeeds text)) := by
  have agrees : Agrees _ (readQuoted 0 text) (readQuoted 0 (withLineFeeds text)) :=
    readQuoted_agrees (by simp)
  unfold readString
  generalize readQuoted 0 text = outcome at agrees
  generalize readQuoted 0 (withLineFeeds text) = outcome' at agrees
  cases agrees with
  | ok content =>
      exact .ok (Reading.mk (.string (String.ofList content.value))
        ('"' :: content.text) content.rest)
  | error same => exact .error (congrArg ('"' :: ·) same)

theorem readBlockString_agrees (text : List Char) :
    Agrees Reading.withLineFeeds (readBlockString text)
      (readBlockString (withLineFeeds text)) := by
  have agrees := readBlock_agrees text
  unfold readBlockString
  generalize readBlock text = outcome at agrees
  generalize readBlock (withLineFeeds text) = outcome' at agrees
  cases agrees with
  | ok content =>
      simp only [StringContent.withLineFeeds, dedent_withLineFeeds]
      exact .ok (Reading.mk (.blockString (String.ofList (dedent content.value)))
        (tripleQuote ++ content.text) content.rest)
  | error same => exact .error (congrArg (tripleQuote ++ ·) same)

theorem readToken_of_isLineEnd (isEnd : isLineEnd char = true) (rest : List Char) :
    readToken (char :: rest) = .error ⟨faultOfChar char, []⟩ := by
  rcases eq_of_isLineEnd isEnd with rfl | rfl <;> rfl

theorem readToken_dot (single : ∀ more, text ≠ '.' :: '.' :: more) :
    readToken ('.' :: text) = .error ⟨faultOfChar '.', []⟩ := by
  rw [readToken.eq_def]
  split
  next equal => cases equal
  next equal =>
    cases equal
    exact (single _ rfl).elim
  next equal => cases equal
  next equal => cases equal
  next equal => cases equal
  next equal =>
    cases equal
    rfl

/-- A token does not depend on the ends of lines, nor does where a fault is. -/
theorem readToken_agrees (text : List Char) :
    Agrees Reading.withLineFeeds (readToken text) (readToken (withLineFeeds text)) := by
  cases text with
  | nil => exact .ok (Reading.mk .endOfFile [] [])
  | cons char text =>
  cases isEnd : isLineEnd char with
  | true =>
      obtain ⟨more, equal⟩ := exists_withLineFeeds_cons isEnd text
      rw [equal, readToken_of_isLineEnd isEnd, readToken_of_isLineEnd rfl]
      exact .error rfl
  | false =>
  have whole := withLineFeeds_cons_of_ne (ne_return isEnd) text
  by_cases other : char ∉ ['.', '"', '#']
  · rw [whole, readToken_of_other other, readToken_of_other other, ← whole]
    split
    next mark _ =>
      have oneLine : withLineFeeds [char] = [char] :=
        withLineFeeds_of_oneLine (by simpa using isEnd)
      have agrees :
          Agrees Reading.withLineFeeds (.ok ⟨.punctuator mark, [char], text⟩) _ := .ok _
      rwa [Reading.withLineFeeds, oneLine] at agrees
    next =>
    split
    next => exact readNumber_agrees (char :: text)
    next =>
    split
    next =>
      rw [readName_withLineFeeds]
      exact .ok _
    next => exact .error rfl
  · simp only [List.mem_cons, List.not_mem_nil, or_false, Decidable.not_not] at other
    rw [whole]
    rcases other with rfl | rfl | rfl
    · by_cases isSpread : ∃ more, text = '.' :: '.' :: more
      · obtain ⟨more, rfl⟩ := isSpread
        exact .ok (Reading.mk (.punctuator .spread) ['.', '.', '.'] more)
      · have single : ∀ more, text ≠ ['.', '.'] ++ more :=
          fun more equal => isSpread ⟨more, equal⟩
        rw [readToken_dot single,
          readToken_dot (withLineFeeds_ne_append _ (by simp [isLineEnd]) single)]
        exact .error rfl
    · by_cases isBlock : ∃ more, text = '"' :: '"' :: more
      · obtain ⟨more, rfl⟩ := isBlock
        exact readBlockString_agrees more
      · have single : ∀ more, text ≠ ['"', '"'] ++ more :=
          fun more equal => isBlock ⟨more, equal⟩
        rw [readToken_string single,
          readToken_string (withLineFeeds_ne_append _ (by simp [isLineEnd]) single)]
        exact readString_agrees text
    · change Agrees _ (.ok (readComment text)) (.ok (readComment (withLineFeeds text)))
      rw [readComment_withLineFeeds]
      exact .ok _

end GraphQL
