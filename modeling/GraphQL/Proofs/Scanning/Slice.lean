import GraphQL.Lexical.Fault
import GraphQL.Text.Line

/-! Slices of a text by byte offsets.

Where a text is taken apart by byte offsets, these have to lie within it and between two
of its characters. Here every slice checks that, and comes to a halt if an offset is
anywhere else. -/

namespace GraphQL.Scanning

open Text

/-- Why scanning comes to a halt -/
inductive Halt where
  /-- An offset lies outside the text, or within a character. -/
  | outOfBounds
  /-- A loop has not come to its end in as many rounds as it may take. -/
  | endless
  | fault (error : LexicalError)
  deriving DecidableEq, Repr

abbrev Checked := Except Halt

@[simp] theorem ok_bind {ε α β : Type} (value : α) (next : α → Except ε β) :
    Except.ok value >>= next = next value := rfl

/-! ## Slices -/

/-- The text in front of a byte offset, and the text behind it. There is none outside the
text and within a character. -/
def cut? : (offset : Nat) → List Char → Option (List Char × List Char)
  | 0, text => some ([], text)
  | _ + 1, [] => none
  | offset + 1, char :: rest =>
      if char.utf8Size ≤ offset + 1 then
        (cut? (offset + 1 - char.utf8Size) rest).map fun (before, behind) =>
          (char :: before, behind)
      else none

def sliceFrom (text : List Char) (offset : Nat) : Checked (List Char) :=
  match cut? offset text with
  | some (_, rest) => .ok rest
  | none => .error .outOfBounds

/-- The text between two offsets, unless the second is no place to stop. The
first has to be one. -/
def sliceIfWhole (text : List Char) (start stop : Nat) :
    Checked (Option (List Char)) := do
      let rest ← sliceFrom text start
      return if start ≤ stop then (cut? (stop - start) rest).map (·.1) else none

def slice (text : List Char) (start stop : Nat) : Checked (List Char) := do
  match ← sliceIfWhole text start stop with
  | some inside => return inside
  | none => throw .outOfBounds

def charAt (text : List Char) (offset : Nat) : Checked (Option Char) := do
  return (← sliceFrom text offset).head?

def findOffset? (test : Char → Bool) : List Char → Option Nat
  | [] => none
  | char :: rest =>
      if test char then some 0 else (findOffset? test rest).map (char.utf8Size + ·)

def bytes (text : List Char) : List UInt8 := text.flatMap String.utf8EncodeChar

def bytesFrom (text : List Char) (offset : Nat) : Checked (List UInt8) := do
  let _ ← sliceFrom text offset
  return (bytes text).drop offset

def byteAt (text : List Char) (offset : Nat) : Checked (Option UInt8) := do
  return (← bytesFrom text offset).head?

/-- The byte at an offset, which must not be the end of the text -/
def byteIn (text : List Char) (offset : Nat) : Checked UInt8 := do
  match ← byteAt text offset with
  | some byte => return byte
  | none => throw .outOfBounds

/-- A byte is that of a character that passes, and takes no other. -/
def isByteOf (test : Char → Bool) (byte : UInt8) : Bool :=
  byte.toNat < 128 && test (Char.ofNat byte.toNat)

variable {text before inside rest : List Char} {start stop offset : Nat}

theorem cut?_eq_some :
    cut? offset text = some (before, rest) ↔
      text = before ++ rest ∧ offset = byteSize before := by
  fun_induction cut? offset text generalizing before with
  | case1 text =>
      constructor
      · rintro ⟨⟩
        exact ⟨rfl, rfl⟩
      · rintro ⟨rfl, missing⟩
        cases before with
        | nil => rfl
        | cons char before =>
            have positive := char.utf8Size_pos
            simp at missing
            omega
  | case2 offset =>
      simp only [reduceCtorEq, false_iff, not_and]
      intro empty
      rw [(List.append_eq_nil_iff.mp empty.symm).1]
      exact nofun
  | case3 offset char rest' fits induction =>
      simp only [Option.map_eq_some_iff, Prod.mk.injEq, Prod.exists]
      constructor
      · rintro ⟨front, _, found, rfl, rfl⟩
        obtain ⟨rfl, size⟩ := induction.mp found
        refine ⟨rfl, ?_⟩
        rw [byteSize_cons]
        omega
      · rintro ⟨whole, size⟩
        cases before with
        | nil => cases size
        | cons first before =>
            cases whole
            rw [byteSize_cons] at size
            exact ⟨before, rest, induction.mpr ⟨rfl, by omega⟩, rfl, rfl⟩
  | case4 offset char rest' unfit =>
      simp only [reduceCtorEq, false_iff, not_and]
      intro whole
      cases before with
      | nil => exact nofun
      | cons first before =>
          cases whole
          rw [byteSize_cons]
          omega

theorem cut?_cons (char : Char) (size : Nat) (rest : List Char) :
    cut? (char.utf8Size + size) (char :: rest) =
    (cut? size rest).map fun (before, behind) => (char :: before, behind) := by
  have positive := char.utf8Size_pos
  obtain ⟨count, equal⟩ :=
    Nat.exists_eq_succ_of_ne_zero (show char.utf8Size + size ≠ 0 by omega)
  rw [equal, cut?, if_pos (by omega), ← Nat.succ_eq_add_one, ← equal,
    Nat.add_sub_cancel_left]

theorem sliceFrom_eq_ok :
    sliceFrom text offset = .ok rest ↔ ∃ before, text = before ++ rest ∧
      offset = byteSize before := by
  unfold sliceFrom
  cases found : cut? offset text with
  | none =>
      simp only [reduceCtorEq, false_iff, not_exists]
      intro before parts
      rw [cut?_eq_some.mpr parts] at found
      cases found
  | some parts =>
      obtain ⟨before, rest'⟩ := parts
      simp only [Except.ok.injEq]
      constructor
      · rintro rfl
        exact ⟨before, cut?_eq_some.mp found⟩
      · rintro ⟨before', parts⟩
        rw [cut?_eq_some.mpr parts] at found
        cases found
        rfl

theorem size_eq (found : sliceFrom text offset = .ok rest) :
    byteSize text = offset + byteSize rest := by
  obtain ⟨before, rfl, rfl⟩ := sliceFrom_eq_ok.mp found
  exact byteSize_append before rest

theorem sliceFrom_behind (found : sliceFrom text offset = .ok (inside ++ rest)) :
    sliceFrom text (offset + byteSize inside) = .ok rest := by
  obtain ⟨before, rfl, rfl⟩ := sliceFrom_eq_ok.mp found
  exact sliceFrom_eq_ok.mpr
    ⟨before ++ inside, (List.append_assoc ..).symm, (byteSize_append ..).symm⟩

theorem sliceFrom_cons {char : Char}
    (found : sliceFrom text offset = .ok (char :: rest)) :
    sliceFrom text (offset + char.utf8Size) = .ok rest :=
  sliceFrom_behind (show sliceFrom text offset = .ok ([char] ++ rest) from found)

theorem charAt_eq (found : sliceFrom text offset = .ok rest) :
    charAt text offset = .ok rest.head? := by
  rw [charAt, found]
  rfl

theorem sliceIfWhole_eq (found : sliceFrom text start = .ok rest) (size : Nat) :
    sliceIfWhole text start (start + size) = .ok ((cut? size rest).map (·.1)) := by
  rw [sliceIfWhole, found]
  change Except.ok (if start ≤ start + size then _ else _) = _
  rw [if_pos (Nat.le_add_right ..), Nat.add_sub_cancel_left]

theorem slice_eq (found : sliceFrom text start = .ok (inside ++ rest)) :
    slice text start (start + byteSize inside) = .ok inside := by
  rw [slice, sliceIfWhole_eq found, cut?_eq_some.mpr ⟨rfl, rfl⟩]
  rfl

example : slice "aéb".toList 1 3 = .ok ['é'] := by rfl
example : slice "aéb".toList 1 2 = .error .outOfBounds := by rfl
example : sliceFrom "aéb".toList 5 = .error .outOfBounds := by rfl

theorem findOffset?_getD (found : sliceFrom text offset = .ok rest) (test : Char → Bool) :
    ((findOffset? test rest).map (offset + ·)).getD (byteSize text) =
      offset + byteSize (rest.takeWhile (!test ·)) := by
  induction rest generalizing offset with
  | nil => exact size_eq found
  | cons char rest induction =>
      rw [findOffset?, List.takeWhile_cons]
      cases passes : test char with
      | true => rfl
      | false =>
          have behind := induction (sliceFrom_cons found)
          rw [Nat.add_assoc] at behind
          simpa [Function.comp_def, Nat.add_assoc] using behind

theorem byteSize_eq_length (single : ∀ char ∈ text, char.utf8Size = 1) :
    byteSize text = text.length := by
  induction text with
  | nil => rfl
  | cons char rest induction =>
      obtain ⟨one, single⟩ := List.forall_mem_cons.mp single
      rw [byteSize_cons, one, induction single, List.length_cons, Nat.add_comm]

/-! ## Bytes -/

theorem length_bytes (text : List Char) : (bytes text).length = byteSize text := by
  induction text with
  | nil => rfl
  | cons char rest induction =>
      rw [bytes, List.flatMap_cons, List.length_append, String.length_utf8EncodeChar,
        ← bytes, induction]
      rfl

theorem bytesFrom_eq (found : sliceFrom text offset = .ok rest) :
    bytesFrom text offset = .ok (bytes rest) := by
  rw [bytesFrom, found]
  obtain ⟨before, rfl, rfl⟩ := sliceFrom_eq_ok.mp found
  change Except.ok ((bytes (before ++ rest)).drop (byteSize before)) = _
  rw [bytes, List.flatMap_append, ← bytes, ← bytes, List.drop_left' (length_bytes before)]

theorem byteAt_eq (found : sliceFrom text offset = .ok rest) :
    byteAt text offset = .ok (bytes rest).head? := by
  rw [byteAt, bytesFrom_eq found]
  rfl

theorem isByteOf_alone (test : Char → Bool) {char : Char} (one : char.utf8Size = 1) :
    isByteOf test char.val.toUInt8 = test char := by
  have le : char.toNat ≤ 127 :=
    UInt32.le_iff_toNat_le.mp (Char.utf8Size_eq_one_iff.mp one)
  have same : char.val.toUInt8.toNat = char.toNat :=
    Nat.mod_eq_of_lt (show char.toNat < 256 by omega)
  rw [isByteOf, same, Char.ofNat_toNat, decide_eq_true (by omega), Bool.true_and]

theorem isByteOf_high (test : Char → Bool) {byte : UInt8} (high : 128 ≤ byte) :
    isByteOf test byte = false := by
  have le := UInt8.le_iff_toNat_le.mp high
  change 128 ≤ byte.toNat at le
  rw [isByteOf, decide_eq_false (by omega), Bool.false_and]

/-- All bytes of a character that takes several are beyond those of the
characters that take one. -/
theorem le_of_mem_utf8EncodeChar {char : Char} (several : char.utf8Size ≠ 1) :
    ∀ byte ∈ String.utf8EncodeChar char, 128 ≤ byte := by
  have high (byte : UInt8) (mark : UInt8) (le : 128 ≤ mark) : 128 ≤ byte ||| mark := by
    refine UInt8.le_iff_toNat_le.mpr (Nat.le_trans (UInt8.le_iff_toNat_le.mp le) ?_)
    rw [UInt8.toNat_or]
    exact Nat.right_le_or
  rcases char.utf8Size_eq with one | two | three | four
  · exact (several one).elim
  · rw [String.utf8EncodeChar_eq_cons_cons two]
    simp [high]
  · rw [String.utf8EncodeChar_eq_cons_cons_cons three]
    simp [high]
  · rw [String.utf8EncodeChar_eq_cons_cons_cons_cons four]
    simp [high]

theorem isByteOf_of_mem {test : Char → Bool} {char : Char} (fails : test char = false) :
    ∀ byte ∈ String.utf8EncodeChar char, isByteOf test byte = false := by
  intro byte member
  by_cases one : char.utf8Size = 1
  · rw [String.utf8EncodeChar_eq_singleton one, List.mem_singleton] at member
    rw [member, isByteOf_alone test one, fails]
  · exact isByteOf_high test (le_of_mem_utf8EncodeChar one byte member)

/-- A test of characters passes none that takes several bytes. -/
def IsAscii (test : Char → Bool) : Prop := ∀ char, test char = true → char.utf8Size = 1

namespace IsAscii

variable {test : Char → Bool} {char : Char}

theorem of_all {chars : List Char} (single : chars.all (·.utf8Size == 1) = true) :
    IsAscii chars.contains :=
  fun char member => eq_of_beq (List.all_eq_true.mp single char (List.elem_iff.mp member))

theorem exists_cons (ascii : IsAscii test) (char : Char) :
    ∃ byte more, String.utf8EncodeChar char = byte :: more ∧
      isByteOf test byte = test char ∧
      (test char = true → more = []) := by
  cases passes : test char with
  | true =>
      have one := ascii char passes
      exact ⟨_, [], String.utf8EncodeChar_eq_singleton one,
        (isByteOf_alone test one).trans passes, fun _ => rfl⟩
  | false =>
      have nonempty : String.utf8EncodeChar char ≠ [] := by
        refine List.ne_nil_of_length_pos ?_
        rw [String.length_utf8EncodeChar]
        exact char.utf8Size_pos
      obtain ⟨byte, more, equal⟩ := List.exists_cons_of_ne_nil nonempty
      exact ⟨byte, more, equal,
        isByteOf_of_mem passes byte (equal ▸ List.mem_cons_self), nofun⟩

theorem any_head? (ascii : IsAscii test) (text : List Char) :
    (bytes text).head?.any (isByteOf test) = text.head?.any test := by
  cases text with
  | nil => rfl
  | cons char rest =>
      obtain ⟨byte, more, equal, same, _⟩ := ascii.exists_cons char
      rw [bytes, List.flatMap_cons, equal]
      exact same

theorem length_takeWhile (ascii : IsAscii test) (text : List Char) :
    ((bytes text).takeWhile (isByteOf test)).length = byteSize (text.takeWhile test) := by
  induction text with
  | nil => rfl
  | cons char rest induction =>
      obtain ⟨byte, more, equal, same, single⟩ := ascii.exists_cons char
      have size := String.length_utf8EncodeChar char
      rw [equal] at size
      rw [bytes, List.flatMap_cons, equal, List.cons_append, List.takeWhile_cons,
        List.takeWhile_cons, same]
      split
      next passes =>
        rw [single passes] at size ⊢
        rw [List.nil_append, ← bytes, List.length_cons, induction, byteSize_cons, ← size]
        exact Nat.add_comm ..
      next => rfl

theorem all_bytes (ascii : IsAscii test) (text : List Char) :
    (bytes text).all (isByteOf test) = text.all test := by
  induction text with
  | nil => rfl
  | cons char rest induction =>
      obtain ⟨byte, more, equal, same, single⟩ := ascii.exists_cons char
      rw [bytes, List.flatMap_cons, equal, List.cons_append, List.all_cons, same,
        List.all_cons]
      cases passes : test char with
      | false => rfl
      | true => rw [single passes, List.nil_append, ← bytes, induction]

theorem findIdx?_eq (ascii : IsAscii test) (text : List Char) :
    (bytes text).findIdx? (isByteOf test) = findOffset? test text := by
  induction text with
  | nil => rfl
  | cons char rest induction =>
      have size := String.length_utf8EncodeChar char
      rw [findOffset?]
      split
      next passes =>
        obtain ⟨byte, more, equal, same, _⟩ := ascii.exists_cons char
        rw [bytes, List.flatMap_cons, equal, List.cons_append, List.findIdx?_cons, same,
          if_pos passes]
      next fails =>
        have missing : (String.utf8EncodeChar char).findIdx? (isByteOf test) = none :=
          List.findIdx?_eq_none_iff.mpr (isByteOf_of_mem (Bool.not_eq_true _ ▸ fails))
        rw [bytes, List.flatMap_cons, List.findIdx?_append, missing, Option.none_or,
          ← bytes, size, induction]
        exact congrArg (Option.map · _) (funext fun offset => Nat.add_comm ..)

end IsAscii

end GraphQL.Scanning
