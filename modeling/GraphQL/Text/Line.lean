/-! Lines of a text. CR LF, CR and LF each end one line. -/

namespace GraphQL.Text

/-- How many bytes the characters take in UTF-8. -/
def byteSize : List Char → Nat
  | [] => 0
  | char :: rest => char.utf8Size + byteSize rest

@[simp] theorem byteSize_nil : byteSize [] = 0 := rfl

@[simp] theorem byteSize_cons (char : Char) (rest : List Char) :
    byteSize (char :: rest) = char.utf8Size + byteSize rest := rfl

theorem length_le_byteSize (text : List Char) : text.length ≤ byteSize text := by
  induction text with
  | nil => exact Nat.le_refl _
  | cons char rest induction =>
      have positive := char.utf8Size_pos
      rw [List.length_cons, byteSize_cons]
      omega

@[simp] theorem byteSize_append (first second : List Char) :
    byteSize (first ++ second) = byteSize first + byteSize second := by
  induction first with
  | nil => simp
  | cons char rest induction => simp [induction, Nat.add_assoc]

/-- The characters that lie wholly within the first `size` bytes, and whether
they fill those bytes: a cut may fall inside a character. A `size` past the end
takes the whole text. -/
def takeBytes : Nat → List Char → List Char × Bool
  | _, [] => ([], true)
  | size, char :: rest =>
      if size = 0 then ([], true)
      else if size < char.utf8Size then ([], false)
      else
        let (taken, aligned) := takeBytes (size - char.utf8Size) rest
        (char :: taken, aligned)

/-- What follows the first `size` bytes; a character cut in two is dropped. -/
def dropBytes : Nat → List Char → List Char
  | _, [] => []
  | size, char :: rest =>
      if size = 0 then char :: rest else dropBytes (size - char.utf8Size) rest

theorem takeBytes_byteSize_append (covered rest : List Char) :
    takeBytes (byteSize covered) (covered ++ rest) = (covered, true) := by
  induction covered with
  | nil => cases rest <;> simp [takeBytes]
  | cons char covered induction =>
      have positive := char.utf8Size_pos
      have nonzero : char.utf8Size ≠ 0 := by omega
      simp [takeBytes, nonzero, induction]

/-! ## Lines -/

/-- LF and CR end a line. -/
def isLineEnd (char : Char) : Bool :=
  char == '\n' || char == '\r'

def consFirst (char : Char) : List (List Char) → List (List Char)
  | [] => [[char]]
  | line :: more => (char :: line) :: more

/-- The lines of a text, without the terminators. A terminator at the very end
opens one more, empty line, so there is always at least one. -/
def lines : List Char → List (List Char)
  | [] => [[]]
  | '\r' :: '\n' :: rest => [] :: lines rest
  | char :: rest =>
      if isLineEnd char then [] :: lines rest else consFirst char (lines rest)

example : lines "a\r\nb\rc\n".toList = [['a'], ['b'], ['c'], []] := by decide

theorem consFirst_ne_nil (char : Char) (more : List (List Char)) :
    consFirst char more ≠ [] := by
  cases more <;> simp [consFirst]

theorem lines_ne_nil (text : List Char) : lines text ≠ [] := by
  fun_cases lines text <;> simp [consFirst_ne_nil]

def joinLines (lines : List (List Char)) : List Char :=
  List.intercalate ['\n'] lines

end GraphQL.Text
