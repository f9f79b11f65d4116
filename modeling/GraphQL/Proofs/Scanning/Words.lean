import GraphQL.Proofs.Lexing.Spelling
import GraphQL.Proofs.Scanning.Slice

/-! Comments, names and numbers, scanned by byte offsets.

Each is scanned from the offset at which it begins to the one at which it ends. What comes
of it is what reading the text behind the first offset comes to, and all slices on the way
are in their bounds. -/

namespace GraphQL.Scanning

open Text

/-- What has been read in the text from an offset on, with a fault in its place there -/
def placed {α β : Type} (start : Nat) (result : α → β) : Except Misread α → Checked β
  | .ok value => .ok (result value)
  | .error misread => .error (.fault ⟨misread.fault, start + byteSize misread.text⟩)

@[simp] theorem placed_ok {α β : Type} (start : Nat) (result : α → β) (value : α) :
    placed start result (.ok value) = .ok (result value) := rfl

@[simp] theorem placed_error {α β : Type} (start : Nat) (result : α → β)
    (misread : Misread) :
    placed start result (.error misread) =
      .error (.fault ⟨misread.fault, start + byteSize misread.text⟩) := rfl

def placedToken (start : Nat) (outcome : Except Misread Reading) :
    Checked (Lexeme × Nat) :=
  placed start (fun reading => (reading.lexeme, start + byteSize reading.text)) outcome

def fault {α : Type} (fault : LexicalFault) (offset : Nat) : Checked α :=
  .error (.fault ⟨fault, offset⟩)

section

variable (text : List Char)

/-! ## Comments and names -/

/-- A comment goes on to the first byte of a line end. -/
def scanComment (start : Nat) : Checked (Lexeme × Nat) := do
  let ending := (← bytesFrom text (start + 1)).findIdx? (isByteOf isLineEnd)
  let stop := (ending.map (start + 1 + ·)).getD (byteSize text)
  return (.comment (String.ofList (← slice text (start + 1) stop)), stop)

/-- A name goes on to the first character that does not continue it. -/
def scanName (start : Nat) : Checked (Lexeme × Nat) := do
  let ending := findOffset? (!isNameContinue ·) (← sliceFrom text start)
  let stop := (ending.map (start + ·)).getD (byteSize text)
  return (.name (String.ofList (← slice text start stop)), stop)

/-! ## Numbers -/

def scanDigits (offset : Nat) : Checked Nat := do
  let next ← charAt text offset
  if next.any Char.isDigit then
    return offset + ((← bytesFrom text offset).takeWhile (isByteOf Char.isDigit)).length
  else fault (.digitExpected next) offset

def scanSign (offset : Nat) : Checked Nat := do
  if isByteOf ['-'].contains (← byteIn text offset) then return offset + 1
    else return offset

def scanInteger (offset : Nat) : Checked Nat := do
  if (← byteAt text offset).any (isByteOf ['0'].contains) then
    match (← charAt text (offset + 1)).filter Char.isDigit with
    | some next => fault (.digitAfterZero next) (offset + 1)
    | none => return offset + 1
  else scanDigits text offset

/-- Takes a part of a number that may be left out, if one of a few signs begins
it. Says whether it is there. -/
def scanOptional (signs : List Char) (next : Nat → Checked Nat) (offset : Nat) :
    Checked (Bool × Nat) := do
      if (← byteAt text offset).any (isByteOf signs.contains)
        then return (true, ← next (offset + 1))
      else return (false, offset)

def scanFraction : Nat → Checked (Bool × Nat) := scanOptional text ['.'] (scanDigits text)

def scanExponent : Nat → Checked (Bool × Nat) :=
  scanOptional text ['e', 'E'] fun offset => do
    let (_, offset) ← scanOptional text ['+', '-'] pure offset
    scanDigits text offset

/-- Refuses a number that runs on into a point or a name. -/
def checkEnded (offset : Nat) : Checked Unit := do
  match (← charAt text offset).filter (fun char => char == '.' || isNameStart char) with
  | some next => fault (.digitExpected (some next)) offset
  | none => return ()

def scanTail (offset : Nat) : Checked (Bool × Nat) := do
  let (hasFraction, offset) ← scanFraction text offset
  let (hasExponent, offset) ← scanExponent text offset
  checkEnded text offset
  return (hasFraction || hasExponent, offset)

def scanNumber (start : Nat) : Checked (Lexeme × Nat) := do
  let (isFloat, stop) ← scanTail text (← scanInteger text (← scanSign text start))
  let spelling := String.ofList (← slice text start stop)
  return (if isFloat then .float spelling else .integer spelling, stop)

end

variable {text rest : List Char} {start : Nat}

/-! ## Words in their bounds -/

theorem isAscii_isLineEnd : IsAscii isLineEnd := fun char isEnd => by
  rcases eq_of_isLineEnd isEnd with rfl | rfl <;> rfl

theorem isAscii_isDigit : IsAscii Char.isDigit := fun char isDigit => by
  have le : char.val ≤ 57 := by simpa using (Bool.and_eq_true_iff.mp isDigit).2
  exact Char.utf8Size_eq_one_iff.mpr (UInt32.le_trans le (by decide))

theorem scanComment_eq (found : sliceFrom text start = .ok ('#' :: rest)) :
    scanComment text start = placedToken start (.ok (readComment rest)) := by
  have behind : sliceFrom text (start + 1) = .ok rest := sliceFrom_cons found
  have whole := List.takeWhile_append_dropWhile (p := (!isLineEnd ·)) (l := rest)
  rw [scanComment, bytesFrom_eq behind]
  simp only [ok_bind, isAscii_isLineEnd.findIdx?_eq, findOffset?_getD behind]
  rw [slice_eq (whole ▸ behind)]
  exact congrArg Except.ok (Prod.ext rfl (Nat.add_assoc ..))

theorem scanName_eq (found : sliceFrom text start = .ok rest) :
    scanName text start = placedToken start (.ok (readName rest)) := by
  have whole := List.takeWhile_append_dropWhile (p := isNameContinue) (l := rest)
  rw [scanName, found]
  simp only [ok_bind, findOffset?_getD found, Bool.not_not]
  rw [slice_eq (whole ▸ found)]
  rfl

/-! ## Numbers in their bounds -/

section Numbers

open Number

variable {cut after : Cut} {part next : Cut → Except Misread Cut}
variable {scan scan' : Nat → Checked Nat}
variable {taken : List Char}

/-- A part of a number is scanned as it is read, wherever the number begins. -/
def Scans (text : List Char) (part : Cut → Except Misread Cut)
    (scan : Nat → Checked Nat) : Prop :=
  ∀ ⦃start taken rest⦄, sliceFrom text start = .ok (taken ++ rest) →
    scan (start + byteSize taken) =
      placed start (fun after => start + byteSize after.text) (part ⟨taken, rest⟩)

theorem append_of_local (isLocal : Local part) (outcome : part cut = .ok after) :
    after.text ++ after.rest = cut.text ++ cut.rest := by
  obtain ⟨covered, text, rest, _⟩ := isLocal outcome
  rw [text, rest, List.append_assoc]

theorem Scans.bind (isLocal : Local part) (scans : Scans text part scan)
    (scans' : Scans text next scan') :
    Scans text (fun cut => part cut >>= next) (fun offset => scan offset >>= scan') := by
  intro start taken rest found
  change scan _ >>= scan' = placed start _ (part ⟨taken, rest⟩ >>= next)
  rw [scans found]
  cases outcome : part ⟨taken, rest⟩ with
  | error misread => rfl
  | ok after =>
      have found' : sliceFrom text start = .ok (after.text ++ after.rest) := by
        rw [append_of_local isLocal outcome, found]
      exact scans' found'

theorem scans_digits (text : List Char) : Scans text digits (scanDigits text) := by
  intro start taken rest found
  have behind := sliceFrom_behind found
  rw [scanDigits, charAt_eq behind, bytesFrom_eq behind, digits]
  simp only [ok_bind, isAscii_isDigit.length_takeWhile]
  split
  · rw [placed_ok, byteSize_append, ← Nat.add_assoc]
    rfl
  · rfl

theorem scans_integerPart (text : List Char) :
    Scans text integerPart (scanInteger text) := by
  intro start taken rest found
  have behind := sliceFrom_behind found
  have ascii : IsAscii ['0'].contains := .of_all rfl
  rw [scanInteger, byteAt_eq behind, ok_bind, ascii.any_head?]
  by_cases zero : rest.head? = some '0'
  · obtain ⟨rest, rfl⟩ := List.head?_eq_some_iff.mp zero
    have size : start + byteSize taken + 1 = start + byteSize (taken ++ ['0']) := by
      rw [byteSize_append, ← Nat.add_assoc]
      rfl
    have isZero : ('0' :: rest).head?.any ['0'].contains = true := rfl
    have next : charAt text (start + byteSize taken + 1) = .ok rest.head? :=
      charAt_eq (sliceFrom_cons behind)
    rw [if_pos isZero, next, ok_bind, integerPart_zero, size]
    cases rest.head?.filter Char.isDigit <;> rfl
  · have other : rest.head?.any ['0'].contains = false := by
      cases rest with
      | nil => rfl
      | cons char rest => simpa using zero
    rw [other, if_neg Bool.false_ne_true, integerPart_of_ne zero]
    exact scans_digits text found

theorem scanOptional_eq {signs : List Char} (optional : Optional signs part next)
    (isLocal : Local next) (ascii : IsAscii signs.contains) (scans : Scans text next scan)
    (found : sliceFrom text start = .ok (taken ++ rest)) :
    scanOptional text signs scan (start + byteSize taken) =
      placed start (fun after => (after.text != taken, start + byteSize after.text))
        (part ⟨taken, rest⟩) := by
  have behind := sliceFrom_behind found
  rw [scanOptional, byteAt_eq behind, ok_bind, ascii.any_head?]
  by_cases missing : ∀ char ∈ rest.head?, signs.contains char = false
  · have absent : rest.head?.any signs.contains = false := by
      cases rest with
      | nil => rfl
      | cons char rest => exact missing char rfl
    rw [absent, if_neg Bool.false_ne_true, optional.absent taken rest missing, placed_ok,
      bne_self_eq_false]
    rfl
  · cases rest with
    | nil => exact (missing nofun).elim
    | cons char rest =>
        have member : char ∈ signs := by simpa using missing
        have present : signs.contains char = true := List.elem_iff.mpr member
        have found' : sliceFrom text start = .ok ((taken ++ [char]) ++ rest) := by
          simpa using found
        have size : start + byteSize taken + 1 = start + byteSize (taken ++ [char]) := by
          rw [byteSize_append, byteSize_cons, ascii char present, byteSize_nil,
            Nat.add_assoc]
        rw [List.head?_cons, Option.any_some, present, if_pos rfl,
          optional.present char member, size, scans found']
        cases outcome : next ⟨taken ++ [char], rest⟩ with
        | error misread => rfl
        | ok after =>
            obtain ⟨covered, longer, _⟩ := isLocal outcome
            have other : (after.text != taken) = true := by simp [longer]
            rw [placed_ok, placed_ok, other]
            rfl

theorem scanFraction_eq (found : sliceFrom text start = .ok (taken ++ rest)) :
    scanFraction text (start + byteSize taken) =
      placed start (fun after => (after.text != taken, start + byteSize after.text))
        (fractionPart ⟨taken, rest⟩) :=
  scanOptional_eq optional_fractionPart local_digits (.of_all rfl)
    (scans_digits text) found

theorem scans_exponentSign (text : List Char) :
    Scans text (fun cut => .ok (exponentSign cut))
    fun offset => scanOptional text ['+', '-'] pure offset >>=
      fun (_, offset) => pure offset := by
  intro start taken rest found
  have scans : Scans text .ok pure := fun _ _ _ _ => rfl
  change scanOptional text ['+', '-'] pure _ >>= _ = _
  rw [scanOptional_eq optional_exponentSign local_nothing (.of_all rfl) scans found]
  rfl

theorem scanExponent_eq (found : sliceFrom text start = .ok (taken ++ rest)) :
    scanExponent text (start + byteSize taken) =
      placed start (fun after => (after.text != taken, start + byteSize after.text))
        (exponentPart ⟨taken, rest⟩) := by
  have scans := (scans_exponentSign text).bind local_exponentSign (scans_digits text)
  simp only [bind_assoc, pure_bind] at scans
  exact scanOptional_eq optional_exponentPart (local_exponentSign.bind local_digits)
    (.of_all rfl) scans found

theorem checkEnded_eq (found : sliceFrom text start = .ok (taken ++ rest)) :
    checkEnded text (start + byteSize taken) =
      placed start (fun _ => ()) (ended ⟨taken, rest⟩) := by
  rw [checkEnded, charAt_eq (sliceFrom_behind found), ok_bind, ended_eq]
  cases rest.head?.filter (fun char => char == '.' || isNameStart char) <;> rfl

theorem scanSign_eq {char : Char} (found : sliceFrom text start = .ok (char :: rest)) :
    scanSign text start = .ok (start + byteSize (sign ⟨[], char :: rest⟩).text) := by
  have ascii : IsAscii ['-'].contains := .of_all rfl
  obtain ⟨byte, more, equal, same, _⟩ := ascii.exists_cons char
  have first : byteIn text start = .ok byte := by
    rw [byteIn, byteAt_eq found, ok_bind, bytes, List.flatMap_cons, equal]
    rfl
  rw [scanSign, first, ok_bind, same]
  by_cases minus : char = '-'
  · subst minus
    rfl
  · have other : ['-'].contains char = false := by simpa using minus
    have missing : sign ⟨[], char :: rest⟩ = ⟨[], char :: rest⟩ :=
      Except.ok.inj (optional_sign.absent [] (char :: rest) fun first same =>
        Option.some.inj same ▸ other)
    rw [other, if_neg Bool.false_ne_true, missing]
    rfl

theorem append_bne_self (taken covered : List Char) :
    (taken ++ covered != taken) = !covered.isEmpty := by
  cases covered with
  | nil => simp
  | cons char covered => exact bne_iff_ne.mpr (by simp)

theorem scanTail_eq (found : sliceFrom text start = .ok (taken ++ rest)) :
    scanTail text (start + byteSize taken) =
      placed start (fun whole => (whole.text != taken, start + byteSize whole.text))
        (tail ⟨taken, rest⟩) := by
  rw [scanTail, scanFraction_eq found, tail]
  cases fraction : fractionPart ⟨taken, rest⟩ with
  | error misread => rfl
  | ok cut =>
      obtain ⟨covered, longer, _⟩ := local_fractionPart fraction
      have found' : sliceFrom text start = .ok (cut.text ++ cut.rest) := by
        rw [append_of_local local_fractionPart fraction, found]
      simp only [placed_ok, ok_bind, scanExponent_eq found']
      cases exponent : exponentPart cut with
      | error misread => rfl
      | ok whole =>
          obtain ⟨covered', longer', _⟩ := local_exponentPart exponent
          have found'' : sliceFrom text start = .ok (whole.text ++ whole.rest) := by
            rw [append_of_local local_exponentPart exponent, found']
          simp only [placed_ok, ok_bind, checkEnded_eq found'']
          cases last : ended whole with
          | error misread => rfl
          | ok after =>
              obtain ⟨rfl, _⟩ := ended_eq_ok last
              -- A part is there if it takes anything, and so is the whole of them.
              have isFloat : (cut.text != taken || after.text != cut.text) =
                  (after.text != taken) := by
                rw [longer', append_bne_self, longer, append_bne_self, List.append_assoc,
                  append_bne_self]
                cases covered <;> rfl
              simp only [placed_ok, ok_bind, isFloat]
              rfl

theorem scanNumber_eq {char : Char} (found : sliceFrom text start = .ok (char :: rest)) :
    scanNumber text start = placedToken start (readNumber (char :: rest)) := by
  have opened : sliceFrom text start =
      .ok ((sign ⟨[], char :: rest⟩).text ++ (sign ⟨[], char :: rest⟩).rest) := by
    rw [append_of_local local_sign rfl, found]
    rfl
  rw [scanNumber, scanSign_eq found, ok_bind, scans_integerPart text opened,
    readNumber_eq]
  change placed start _ (opening ⟨[], char :: rest⟩) >>= _ = _
  cases first : opening ⟨[], char :: rest⟩ with
  | error misread => rfl
  | ok integer =>
      have found' : sliceFrom text start = .ok (integer.text ++ integer.rest) := by
        rw [append_of_local local_opening first, found]
        rfl
      simp only [placed_ok, ok_bind, scanTail_eq found']
      cases second : tail integer with
      | error misread => rfl
      | ok whole =>
          have found'' : sliceFrom text start = .ok (whole.text ++ whole.rest) := by
            rw [append_of_local local_tail second, found']
          simp only [placed_ok, ok_bind, slice_eq found'']
          rw [placedToken, placed_ok, built]
          by_cases isInteger : whole.text = integer.text <;> simp [isInteger] <;> rfl

example : scanNumber "[-1.5]".toList 1 = .ok (.float "-1.5", 5) := by rfl

end Numbers

end GraphQL.Scanning
