import GraphQL.Proofs.Locating.Offset
import GraphQL.Text.Dedent

/-! Texts with LF at the end of every line.

Lines, and places in them, are the same whatever their ends are. -/

namespace GraphQL

namespace Text

/-! ## One kind of line end -/

def toLineFeed (char : Char) : Char :=
  if char = '\r' then '\n' else char

def joinReturns : List Char → List Char
  | [] => []
  | '\r' :: '\n' :: rest => '\n' :: joinReturns rest
  | char :: rest => char :: joinReturns rest

/-- LF in place of every CR LF, and then of every CR that is left -/
def withLineFeeds (text : List Char) : List Char :=
  (joinReturns text).map toLineFeed

example : withLineFeeds "a\r\r\n\n\rb".toList = "a\n\n\n\nb".toList := by decide

variable {char : Char} {text first second rest : List Char}

theorem toLineFeed_of_ne (other : char ≠ '\r') : toLineFeed char = char := if_neg other

theorem toLineFeed_ne (char : Char) : toLineFeed char ≠ '\r' := by
  rw [toLineFeed]
  split
  next => decide
  next other => exact other

theorem isLineEnd_toLineFeed (char : Char) :
    isLineEnd (toLineFeed char) = isLineEnd char := by
  by_cases isReturn : char = '\r'
  · rw [isReturn]
    rfl
  · rw [toLineFeed_of_ne isReturn]

theorem ne_return (notEnd : isLineEnd char = false) : char ≠ '\r' := by
  rintro rfl
  cases notEnd

theorem withLineFeeds_pair (rest : List Char) :
    withLineFeeds ('\r' :: '\n' :: rest) = '\n' :: withLineFeeds rest := rfl

theorem withLineFeeds_cons (alone : ∀ more, char = '\r' → rest ≠ '\n' :: more) :
    withLineFeeds (char :: rest) = toLineFeed char :: withLineFeeds rest := by
  have joined : joinReturns (char :: rest) = char :: joinReturns rest := by
    rw [joinReturns.eq_def]
    split
    next equal => cases equal
    next more equal =>
      cases equal
      exact (alone more rfl rfl).elim
    next equal =>
      cases equal
      rfl
  rw [withLineFeeds, joined, List.map_cons, withLineFeeds]

theorem withLineFeeds_cons_of_ne (other : char ≠ '\r') (rest : List Char) :
    withLineFeeds (char :: rest) = char :: withLineFeeds rest := by
  rw [withLineFeeds_cons fun _ isReturn => absurd isReturn other, toLineFeed_of_ne other]

theorem head?_withLineFeeds (text : List Char) :
    (withLineFeeds text).head? = text.head?.map toLineFeed := by
  induction text using joinReturns.induct with
  | case1 => rfl
  | case2 rest => rfl
  | case3 char rest alone =>
      rw [withLineFeeds_cons alone]
      rfl

theorem exists_withLineFeeds_cons (isEnd : isLineEnd char = true) (rest : List Char) :
    ∃ more, withLineFeeds (char :: rest) = '\n' :: more := by
  have replaced : toLineFeed char = '\n' := by
    rcases eq_of_isLineEnd isEnd with rfl | rfl <;> rfl
  apply List.head?_eq_some_iff.mp
  rw [head?_withLineFeeds, List.head?_cons, Option.map_some, replaced]

theorem withLineFeeds_eq_nil : withLineFeeds text = [] ↔ text = [] := by
  rw [← List.head?_eq_none_iff, head?_withLineFeeds, Option.map_eq_none_iff,
    List.head?_eq_none_iff]

theorem withLineFeeds_return (rest : List Char) : withLineFeeds ('\r' :: rest) =
    if rest.head? = some '\n' then withLineFeeds rest
      else '\n' :: withLineFeeds rest := by
  split
  next paired =>
    obtain ⟨rest, rfl⟩ := List.head?_eq_some_iff.mp paired
    rw [withLineFeeds_pair, withLineFeeds_cons_of_ne (by decide)]
  next alone =>
    have alone' : ∀ more, '\r' = '\r' → rest ≠ '\n' :: more := by
      rintro more _ rfl
      exact alone rfl
    rw [withLineFeeds_cons alone', toLineFeed, if_pos rfl]

theorem withLineFeeds_append (uncut : Uncut first second) :
    withLineFeeds (first ++ second) = withLineFeeds first ++ withLineFeeds second := by
  induction first using joinReturns.induct with
  | case1 => rfl
  | case2 rest induction =>
      rw [List.cons_append, List.cons_append, withLineFeeds_pair, withLineFeeds_pair,
        induction uncut.of_cons.of_cons, List.cons_append]
  | case3 char rest alone induction =>
      rw [List.cons_append, withLineFeeds_cons (uncut.alone alone),
        withLineFeeds_cons alone, induction uncut.of_cons, List.cons_append]

theorem withLineFeeds_of_oneLine (oneLine : ∀ char ∈ text, isLineEnd char = false) :
    withLineFeeds text = text := by
  induction text with
  | nil => rfl
  | cons char rest induction =>
      obtain ⟨notEnd, oneLine⟩ := List.forall_mem_cons.mp oneLine
      rw [withLineFeeds_cons_of_ne (ne_return notEnd), induction oneLine]

theorem withLineFeeds_append_of_oneLine (oneLine : ∀ char ∈ first, isLineEnd char = false)
    (rest : List Char) :
    withLineFeeds (first ++ rest) = first ++ withLineFeeds rest := by
  rw [withLineFeeds_append fun last => absurd last (getLast?_ne_of_oneLine oneLine),
    withLineFeeds_of_oneLine oneLine]

theorem withLineFeeds_append_oneLine (oneLine : ∀ char ∈ second, isLineEnd char = false)
    (text : List Char) :
    withLineFeeds (text ++ second) = withLineFeeds text ++ second := by
  have uncut : Uncut text second := fun _ begins => by
    cases oneLine _ (List.mem_of_head? begins)
  rw [withLineFeeds_append uncut, withLineFeeds_of_oneLine oneLine]

theorem exists_of_withLineFeeds_eq_append
    (oneLine : ∀ char ∈ first, isLineEnd char = false)
    (equal : withLineFeeds text = first ++ second) :
    ∃ rest, text = first ++ rest ∧ withLineFeeds rest = second := by
  induction first generalizing text with
  | nil => exact ⟨text, rfl, equal⟩
  | cons char first induction =>
      obtain ⟨notEnd, others⟩ := List.forall_mem_cons.mp oneLine
      cases text with
      | nil => cases equal
      | cons next rest =>
          have other : next ≠ '\r' := by
            rintro rfl
            have head := head?_withLineFeeds ('\r' :: rest)
            rw [equal] at head
            cases head
            cases notEnd
          rw [withLineFeeds_cons_of_ne other, List.cons_append] at equal
          obtain ⟨rfl, equal'⟩ := List.cons.inj equal
          obtain ⟨more, rfl, behind⟩ := induction others equal'
          exact ⟨more, rfl, behind⟩

theorem withLineFeeds_ne_append (first : List Char)
    (oneLine : ∀ char ∈ first, isLineEnd char = false)
    (lacks : ∀ more, text ≠ first ++ more) (more : List Char) :
    withLineFeeds text ≠ first ++ more := by
  intro equal
  obtain ⟨rest, same, _⟩ := exists_of_withLineFeeds_eq_append oneLine equal
  exact lacks rest same

/-! ## Runs of characters -/

section

variable {test : Char → Bool}

theorem takeWhile_withLineFeeds (same : test '\r' = test '\n') (text : List Char) :
    (withLineFeeds text).takeWhile test = withLineFeeds (text.takeWhile test) := by
  induction text using joinReturns.induct with
  | case1 => rfl
  | case2 rest induction =>
      cases taken : test '\n' with
      | true =>
          rw [withLineFeeds_pair, List.takeWhile_cons_of_pos taken,
            List.takeWhile_cons_of_pos (same.trans taken),
            List.takeWhile_cons_of_pos taken, withLineFeeds_pair, induction]
      | false =>
          have stops : ¬ test '\r' = true := by simp [same, taken]
          rw [withLineFeeds_pair, List.takeWhile_cons_of_neg (by simp [taken]),
            List.takeWhile_cons_of_neg stops]
          rfl
  | case3 char rest alone induction =>
      have taken : test (toLineFeed char) = test char := by
        by_cases isReturn : char = '\r'
        · rw [isReturn, same]
          rfl
        · rw [toLineFeed_of_ne isReturn]
      rw [withLineFeeds_cons alone]
      cases goesOn : test char with
      | true =>
          have alone' : ∀ more, char = '\r' → rest.takeWhile test ≠ '\n' :: more := by
            intro more isReturn equal
            have split := List.takeWhile_append_dropWhile (p := test) (l := rest)
            rw [equal, List.cons_append] at split
            exact alone _ isReturn split.symm
          rw [List.takeWhile_cons_of_pos (taken.trans goesOn),
            List.takeWhile_cons_of_pos goesOn, withLineFeeds_cons alone', induction]
      | false =>
          rw [List.takeWhile_cons_of_neg (by simp [taken, goesOn]),
            List.takeWhile_cons_of_neg (by simp [goesOn])]
          rfl

theorem dropWhile_withLineFeeds (same : test '\r' = test '\n') (text : List Char) :
    (withLineFeeds text).dropWhile test = withLineFeeds (text.dropWhile test) := by
  -- If CR is taken, the LF behind it is taken as well.
  have uncut : Uncut (text.takeWhile test) (text.dropWhile test) := by
    intro last begins
    have taken : test '\r' = true := List.mem_takeWhile_imp (List.mem_of_getLast? last)
    have stopped := dropWhile_stops test text '\n' begins
    rw [← same, taken] at stopped
    cases stopped
  have split := withLineFeeds_append uncut
  rw [List.takeWhile_append_dropWhile, ← takeWhile_withLineFeeds same] at split
  have split' := List.takeWhile_append_dropWhile (p := test) (l := withLineFeeds text)
  exact List.append_cancel_left (split'.trans split)

end

/-! ## Lines -/

theorem lines_withLineFeeds (text : List Char) :
    lines (withLineFeeds text) = lines text := by
  induction text using joinReturns.induct with
  | case1 => rfl
  | case2 rest induction =>
      change [] :: lines (withLineFeeds rest) = [] :: lines rest
      rw [induction]
  | case3 char rest alone induction =>
      rw [withLineFeeds_cons alone, lines_cons fun _ isReturn =>
        absurd isReturn (toLineFeed_ne char),
        lines_cons alone, induction, isLineEnd_toLineFeed]
      split
      next => rfl
      next notEnd =>
        rw [toLineFeed_of_ne (ne_return (by simpa using notEnd))]

/-- The value of a block string does not depend on the ends of its lines. -/
theorem dedent_withLineFeeds (text : List Char) :
    dedent (withLineFeeds text) = dedent text := by
  rw [dedent, dedent, lines_withLineFeeds]

end Text

open Text

theorem Location.after_withLineFeeds (location : Location) (text : List Char) :
    location.after (withLineFeeds text) = location.after text := by
  fun_induction after location text with
  | case1 => rfl
  | case2 location rest induction => exact induction
  | case3 location char rest alone isEnd induction =>
      rw [withLineFeeds_cons alone, after_cons fun _ isReturn =>
        absurd isReturn (toLineFeed_ne char),
        isLineEnd_toLineFeed, if_pos isEnd, induction]
  | case4 location char rest alone notEnd induction =>
      rw [withLineFeeds_cons alone, after_cons fun _ isReturn =>
        absurd isReturn (toLineFeed_ne char),
        isLineEnd_toLineFeed, if_neg notEnd, induction]

def Source.withLineFeeds (source : Source) : Source :=
  { source with body := String.ofList (Text.withLineFeeds source.chars) }

theorem Source.chars_withLineFeeds (source : Source) :
    source.withLineFeeds.chars = Text.withLineFeeds source.chars := String.toList_ofList

end GraphQL
