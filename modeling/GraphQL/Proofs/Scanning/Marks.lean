import GraphQL.Proofs.Locating.Offset
import GraphQL.Proofs.Scanning.Words

/-! The line and the column that a scan has come to.

A scan keeps the line it is on, and counts its columns on from the last one that it has
counted. That one is never in front of the line, and never behind what has been
scanned. -/

namespace GraphQL.Scanning

open Text

/-- The line that a scan is on, where it begins, and a place on it with its column -/
structure Mark where
  line : Nat
  lineStart : Nat
  cursorOffset : Nat
  cursorColumn : Nat
  deriving DecidableEq, Repr

def Mark.origin : Mark := ⟨1, 0, 0, 1⟩

/-- What is done in steps from one state to another, and may come to a halt
in any of them -/
abbrev Action (State : Type) := ExceptT Halt (StateM State)

abbrev Scan := Action Mark

/-- What an action comes to from a state on, and the state that it leads to -/
def runAt {State α : Type} (state : State) (action : Action State α) :
    Checked α × State :=
  StateT.run (ExceptT.run action) state

section

variable {State α β : Type} {state : State}

@[simp] theorem runAt_pure (value : α) :
    runAt state (pure value) = (.ok value, state) := rfl

@[simp] theorem runAt_ok_bind (value : α) (next : α → Action State β) :
    runAt state (liftM (Except.ok value : Checked α) >>= next) =
      runAt state (next value) := rfl

@[simp] theorem runAt_get_bind (next : State → Action State β) :
    runAt state (get >>= next) = runAt state (next state) := rfl

theorem runAt_bind (action : Action State α) (next : α → Action State β) :
    runAt state (action >>= next) =
    match runAt state action with
    | (.ok value, state) => runAt state (next value)
    | (.error halt, state) => (.error halt, state) := by
  simp only [runAt, ExceptT.run_bind, StateT.run_bind]
  cases StateT.run (ExceptT.run action) state with
  | mk outcome state => cases outcome <;> rfl

end

/-! ## Lines and columns -/

def beginLine (offset : Nat) : Scan Unit := do
  modify fun mark => ⟨mark.line + 1, offset, offset, 1⟩

/-- Counts the column of an offset on the line, on from the one counted last. There is
none in front of that. -/
def columnAt (text : List Char) (offset : Nat) : Scan Nat := do
  let mark ← get
  let column := mark.cursorColumn + (← slice text mark.cursorOffset offset).length
  set { mark with cursorOffset := offset, cursorColumn := column }
  return column

/-- Passes a line end, whose first character is known, and gives the offset behind
it. CR LF is one line end. -/
def passLineEnd (text : List Char) (char : Char) (offset : Nat) : Scan Nat := do
  let size ←
    if char = '\r' then
      pure (if (← byteAt text (offset + 1)).any (isByteOf ['\n'].contains) then 2 else 1)
    else pure 1
  beginLine (offset + size)
  return offset + size

inductive IsLineEnding : List Char → Prop
  | lineFeed : IsLineEnding ['\n']
  | carriageReturn : IsLineEnding ['\r']
  | both : IsLineEnding ['\r', '\n']

theorem IsLineEnding.shorter {ending text rest : List Char}
    (isEnding : IsLineEnding ending)
    (split : text = ending ++ rest) : byteSize rest < byteSize text := by
  have positive : 0 < byteSize ending := by cases isEnding <;> decide
  rw [split, byteSize_append]
  omega

/-- The mark is on the last line of what has been passed: that begins behind `front`, and
the columns of it have been counted up to `beyond`. -/
structure Mark.Splits (mark : Mark) (front counted beyond : List Char) : Prop where
  location : Location.origin.after front = ⟨mark.line, 1⟩
  lineStart : mark.lineStart = byteSize front
  oneLine : ∀ char ∈ counted ++ beyond, isLineEnd char = false
  cursorOffset : mark.cursorOffset = byteSize (front ++ counted)
  cursorColumn : mark.cursorColumn = 1 + counted.length

/-- The mark is on the last line of what has been passed. -/
def Mark.Tracks (mark : Mark) (passed : List Char) : Prop :=
  ∃ front counted beyond, passed = front ++ (counted ++ beyond) ∧
    mark.Splits front counted beyond

/-- A scan has come through a part of the text, with the mark on the last line of
that, and not within CR LF. -/
structure Reaches (text : List Char) (mark : Mark) (passed rest : List Char) : Prop where
  whole : text = passed ++ rest
  tracks : mark.Tracks passed
  uncut : Uncut passed rest

variable {text passed rest more : List Char} {mark : Mark} {char : Char}

theorem after_of_oneLine (oneLine : ∀ char ∈ more, isLineEnd char = false)
    (location : Location) :
    location.after more = ⟨location.line, location.column + more.length⟩ := by
  induction more generalizing location with
  | nil => rfl
  | cons char more induction =>
      obtain ⟨notEnd, oneLine⟩ := List.forall_mem_cons.mp oneLine
      have alone : ∀ rest, char = '\r' → more ≠ '\n' :: rest := by
        rintro rest rfl
        cases notEnd
      rw [Location.after_cons alone, if_neg (by simp [notEnd]), induction oneLine,
        List.length_cons, Nat.add_assoc, Nat.add_comm 1]

theorem uncut_of_oneLine {front : List Char}
    (oneLine : ∀ char ∈ more, isLineEnd char = false) : Uncut front more := by
  intro _ begins
  cases oneLine '\n' (List.mem_of_mem_head? begins)

namespace Mark

theorem Splits.after_eq {front counted beyond : List Char}
    (splits : mark.Splits front counted beyond) :
    Location.origin.after (front ++ (counted ++ beyond)) =
      ⟨mark.line, 1 + (counted ++ beyond).length⟩ := by
  rw [Location.after_append (uncut_of_oneLine splits.oneLine), splits.location,
    after_of_oneLine splits.oneLine]

theorem tracks_origin : Mark.origin.Tracks [] :=
  ⟨[], [], [], rfl, rfl, rfl, nofun, rfl, rfl⟩

theorem Tracks.line_eq (tracks : mark.Tracks passed) :
    mark.line = (Location.origin.after passed).line := by
  obtain ⟨front, counted, beyond, rfl, splits⟩ := tracks
  rw [splits.after_eq]

theorem Tracks.append (tracks : mark.Tracks passed)
    (oneLine : ∀ char ∈ more, isLineEnd char = false) :
    mark.Tracks (passed ++ more) := by
  obtain ⟨front, counted, beyond, rfl, splits⟩ := tracks
  refine ⟨front, counted, beyond ++ more,
    by simp, splits.location, splits.lineStart, ?_, splits.cursorOffset,
    splits.cursorColumn⟩
  rw [← List.append_assoc]
  exact List.forall_mem_append.mpr ⟨splits.oneLine, oneLine⟩

theorem Tracks.beginLine (tracks : mark.Tracks passed) {ending : List Char}
    (isEnding : IsLineEnding ending) (uncut : Uncut passed ending) :
    Tracks ⟨mark.line + 1, byteSize (passed ++ ending), byteSize (passed ++ ending), 1⟩
      (passed ++ ending) := by
  have location : Location.origin.after (passed ++ ending) = ⟨mark.line + 1, 1⟩ := by
    rw [Location.after_append uncut, tracks.line_eq]
    cases isEnding <;> rfl
  exact ⟨passed ++ ending, [], [], by simp, location, rfl, nofun, by simp, rfl⟩

end Mark

namespace Reaches

theorem found (reaches : Reaches text mark passed rest) :
    sliceFrom text (byteSize passed) = .ok rest :=
  sliceFrom_eq_ok.mpr ⟨passed, reaches.whole, rfl⟩

theorem append (reaches : Reaches text mark passed (more ++ rest))
    (oneLine : ∀ char ∈ more, isLineEnd char = false) :
    Reaches text mark (passed ++ more) rest where
  whole := by rw [reaches.whole, List.append_assoc]
  tracks := reaches.tracks.append oneLine
  uncut := reaches.uncut.append (getLast?_ne_of_oneLine oneLine)

/-- A column is counted over characters behind the one counted last, and is the one that
walking there leads to. -/
theorem columnAt_eq (reaches : Reaches text mark passed rest) :
    ∃ mark', runAt mark (columnAt text (byteSize passed)) =
      (.ok (Location.origin.after passed).column, mark') ∧
      Reaches text mark' passed rest ∧ mark'.line = mark.line := by
  obtain ⟨whole, ⟨front, counted, beyond, rfl, splits⟩, uncut⟩ := reaches
  have found : sliceFrom text (byteSize (front ++ counted)) = .ok (beyond ++ rest) :=
    sliceFrom_eq_ok.mpr ⟨_, by simp [whole], rfl⟩
  have stop : byteSize (front ++ (counted ++ beyond)) =
      byteSize (front ++ counted) + byteSize beyond := by
    rw [← List.append_assoc, byteSize_append]
  have inside : slice text mark.cursorOffset (byteSize (front ++ (counted ++ beyond))) =
      .ok beyond := by
    rw [splits.cursorOffset, stop]
    exact slice_eq found
  have column : mark.cursorColumn + beyond.length = 1 + (counted ++ beyond).length := by
    rw [splits.cursorColumn, List.length_append, Nat.add_assoc]
  refine ⟨{ mark with
    cursorOffset := byteSize (front ++ (counted ++ beyond))
    cursorColumn := mark.cursorColumn + beyond.length }, ?_, ⟨whole, ?_, uncut⟩, rfl⟩
  · rw [splits.after_eq, ← column, columnAt]
    change runAt mark (liftM (slice text mark.cursorOffset _) >>= _) = _
    rw [inside]
    rfl
  · exact ⟨front, counted ++ beyond, [],
      by simp, splits.location, splits.lineStart, by simpa using splits.oneLine,
      rfl, column⟩

theorem passLineEnd_eq (reaches : Reaches text mark passed (char :: rest))
    (isEnd : isLineEnd char = true) :
    ∃ ending rest' mark', char :: rest = ending ++ rest' ∧ IsLineEnding ending ∧
      runAt mark (passLineEnd text char (byteSize passed)) =
        (.ok (byteSize passed + byteSize ending), mark') ∧
      Reaches text mark' (passed ++ ending) rest' := by
  -- The line end is passed as what it is, and the scan is not within CR LF then.
  suffices passes : ∃ ending rest', char :: rest = ending ++ rest' ∧ IsLineEnding ending ∧
      runAt mark (passLineEnd text char (byteSize passed)) = runAt mark (do
        beginLine (byteSize passed + byteSize ending)
        return byteSize passed + byteSize ending) ∧ Uncut (passed ++ ending) rest' by
    obtain ⟨ending, rest', split, isEnding, run, uncut⟩ := passes
    have begins := reaches.tracks.beginLine isEnding (split ▸ reaches.uncut).of_append
    rw [byteSize_append] at begins
    exact ⟨ending, rest', _, split, isEnding, run, ⟨by
      rw [reaches.whole, split, List.append_assoc], begins, uncut⟩⟩
  have behind : sliceFrom text (byteSize passed + 1) = .ok rest := by
    have single := isAscii_isLineEnd char isEnd
    exact single ▸ sliceFrom_cons reaches.found
  have ascii : IsAscii ['\n'].contains := .of_all rfl
  rcases eq_of_isLineEnd isEnd with rfl | rfl
  · exact ⟨['\n'], rest, rfl, .lineFeed, rfl, reaches.uncut.append (by decide)⟩
  · have run (size : Nat)
        (seen : (if rest.head?.any ['\n'].contains then 2 else 1) = size) :
        runAt mark (passLineEnd text '\r' (byteSize passed)) = runAt mark (do
          beginLine (byteSize passed + size)
          return byteSize passed + size) := by
      rw [← seen, ← ascii.any_head?, passLineEnd, if_pos rfl, byteAt_eq behind]
      rfl
    by_cases second : rest.head? = some '\n'
    · obtain ⟨rest, rfl⟩ := List.head?_eq_some_iff.mp second
      exact ⟨['\r', '\n'], rest, rfl, .both, run 2 rfl, reaches.uncut.append (by decide)⟩
    · refine ⟨['\r'], rest, rfl, .carriageReturn, run 1 ?_, fun _ => second⟩
      cases rest with
      | nil => rfl
      | cons next rest =>
          have other : next ≠ '\n' := fun same => second (congrArg some same)
          simp [other]

end Reaches

/-! ## In the source -/

/-- The mark is on the line of an offset: that is the line it counts, it begins where that
line does, and its place with a column is on the line up to the offset. -/
structure Mark.IsOn (source : Source) (mark : Mark) (offset : Nat) : Prop where
  isBoundary : source.IsBoundary offset
  line_eq : mark.line = (source.locationAt offset).line
  lineStart_eq : mark.lineStart = Text.lineStart (mark.line - 1) source.chars
  lineStart_le : mark.lineStart ≤ mark.cursorOffset
  cursorOffset_le : mark.cursorOffset ≤ offset
  /-- The column counts the characters from the beginning of the line. -/
  cursorColumn_eq : ∃ counted,
    slice source.chars mark.lineStart mark.cursorOffset = .ok counted ∧
    mark.cursorColumn = 1 + counted.length

theorem uncut_append_of_oneLine {front : List Char} (uncut : Uncut (front ++ more) rest)
    (oneLine : ∀ char ∈ more, isLineEnd char = false) : Uncut front (more ++ rest) := by
  cases more with
  | nil => rwa [List.append_nil] at uncut
  | cons char more =>
      intro _ begins
      cases begins
      cases oneLine '\n' List.mem_cons_self

/-- A mark at the beginning of a line is where the line begins in the whole text. -/
theorem Mark.Splits.lineStart_eq {front counted beyond : List Char}
    (splits : mark.Splits front counted beyond)
    {behind : List Char} (uncut : Uncut front behind) :
    mark.lineStart = Text.lineStart (mark.line - 1) (front ++ behind) := by
  obtain ⟨lines', last, split⟩ := exists_lines_eq_append front
  have line := Location.origin.line_after front
  have column := Location.origin.column_after front
  rw [splits.location, split, List.length_append, List.length_singleton] at line
  rw [splits.location, split, List.getLastD_concat] at column
  change 1 = (if _ then 1 else 1) + _ at column
  rw [ite_self] at column
  change _ = 1 + _ at line
  have empty : last = [] := List.eq_nil_of_length_eq_zero (by omega)
  have count : mark.line - 1 = lines'.length := by
    change mark.line + 1 = _ at line
    omega
  have start := (getElem?_lines_append uncut split).2
  rw [splits.lineStart, count, start, empty, byteSize_nil, Nat.add_zero]

theorem Reaches.isOn {source : Source} (reaches : Reaches source.chars mark passed rest) :
    mark.IsOn source (byteSize passed) := by
  obtain ⟨whole, ⟨front, counted, beyond, rfl, splits⟩, uncut⟩ := reaches
  have whole' : source.chars = front ++ (counted ++ beyond ++ rest) := by simp [whole]
  constructor
  · exact ⟨_, rest, whole, rfl⟩
  · rw [Source.locationAt, whole, Location.ofOffset_byteSize, splits.after_eq]
  · rw [whole']
    exact splits.lineStart_eq (uncut_append_of_oneLine uncut splits.oneLine)
  · rw [splits.lineStart, splits.cursorOffset, byteSize_append]
    exact Nat.le_add_right ..
  · rw [splits.cursorOffset, ← List.append_assoc, byteSize_append _ beyond]
    exact Nat.le_add_right ..
  · have found :
        sliceFrom source.chars (byteSize front) = .ok (counted ++ (beyond ++ rest)) :=
      sliceFrom_eq_ok.mpr ⟨front, by simp [whole], rfl⟩
    refine ⟨counted, ?_, splits.cursorColumn⟩
    rw [splits.lineStart, splits.cursorOffset, byteSize_append]
    exact slice_eq found

end GraphQL.Scanning
