import GraphQL.Lexical.Token
import Mathlib.Data.List.TakeWhile

/-! What a token is read from.

A token covers the front of the text, and how it is read depends on nothing behind
it: in front of another text it is read again, as long as it does not run on. -/

namespace GraphQL

open Text

theorem eq_of_isLineEnd {char : Char} (isEnd : isLineEnd char = true) :
    char = '\n' ∨ char = '\r' := by
  simpa [isLineEnd] using isEnd

theorem not_isLineEnd (property : Char → Prop) {char : Char} (holds : property char)
    (lineFeed : ¬ property '\n')
    (carriage : ¬ property '\r') : isLineEnd char = false := by
  cases isEnd : isLineEnd char with
  | false => rfl
  | true =>
      rcases eq_of_isLineEnd isEnd with rfl | rfl
      · exact absurd holds lineFeed
      · exact absurd holds carriage

theorem bind_eq_ok {ε α β : Type} {first : Except ε α}
    {second : α → Except ε β} {value : β} :
    first >>= second = .ok value ↔
      ∃ given, first = .ok given ∧ second given = .ok value := by
  cases first <;> simp [bind, Except.bind]

theorem bind_eq_error {ε α β : Type} {first : Except ε α}
    {second : α → Except ε β} {error : ε} :
    first >>= second = .error error ↔
      first = .error error ∨ ∃ given, first = .ok given ∧
        second given = .error error := by
  cases first <;> simp [bind, Except.bind]

/-- No token runs on into the text, since it is empty or ends a line. -/
def Breaks (rest : List Char) : Prop := ∀ char ∈ rest.head?, isLineEnd char = true

@[simp] theorem breaks_nil : Breaks [] := nofun

@[simp] theorem breaks_cons {char : Char} {rest : List Char} :
    Breaks (char :: rest) ↔ isLineEnd char = true := by
  simp [Breaks]

/-- What follows begins with the same character, or breaks. -/
def Follows (rest other : List Char) : Prop := other.head? = rest.head? ∨ Breaks other

theorem Follows.append {rest other : List Char} (follows : Follows rest other)
    (covered : List Char) : Follows (covered ++ rest) (covered ++ other) := by
  cases covered with
  | nil => exact follows
  | cons char covered => exact .inl rfl

theorem Follows.lacks {test : Char → Bool} {rest other : List Char}
    (follows : Follows rest other) (lacks : ∀ char ∈ rest.head?, test char = false)
    (texts : ∀ char, isLineEnd char = true → test char = false) :
    ∀ char ∈ other.head?, test char = false := by
  intro char first
  rcases follows with same | breaks
  · exact lacks char (same ▸ first)
  · exact texts char (breaks char first)

/-- The reading covers the front of the text, and is the same if what follows begins
with the same character or breaks. -/
structure Reading.Covers (reader : List Char → Except Misread Reading) (text : List Char)
    (reading : Reading) : Prop where
  whole : text = reading.text ++ reading.rest
  again : ∀ {rest}, Follows reading.rest rest →
    reader (reading.text ++ rest) = .ok { reading with rest }

/-! ## Runs of characters -/

section Runs

variable (test : Char → Bool) (text : List Char)

theorem takeWhile_again {rest : List Char}
    (stops : ∀ char ∈ rest.head?, test char = false) :
    (text.takeWhile test ++ rest).takeWhile test = text.takeWhile test ∧
      (text.takeWhile test ++ rest).dropWhile test = rest := by
  have all : ∀ char ∈ text.takeWhile test, test char = true :=
    fun _ => List.mem_takeWhile_imp
  rw [List.takeWhile_append_of_pos all, List.dropWhile_append_of_pos all]
  cases rest with
  | nil => simp
  | cons char rest => simp [stops char rfl]

theorem dropWhile_stops : ∀ char ∈ (text.dropWhile test).head?, test char = false := by
  intro char first
  have stopped := List.head?_dropWhile_not test text
  rw [first] at stopped
  exact stopped

end Runs

theorem not_isNameContinue_of_isLineEnd {char : Char} (isEnd : isLineEnd char = true) :
    isNameContinue char = false := by
  rcases eq_of_isLineEnd isEnd with rfl | rfl <;> decide

theorem readComment_covers (text : List Char) :
    (readComment text).Covers (fun text => .ok (readComment text.tail))
      ('#' :: text) where
  whole := by simp [readComment]
  again {rest} follows := by
    have run := takeWhile_again (!isLineEnd ·) text <|
      follows.lacks (dropWhile_stops _ text) fun char isEnd => by simp [isEnd]
    simp [readComment, run]

theorem readName_covers (text : List Char) :
    (readName text).Covers (fun text => .ok (readName text)) text where
  whole := by simp [readName]
  again {rest} follows := by
    have run := takeWhile_again isNameContinue text <|
      follows.lacks (dropWhile_stops _ text) fun _ => not_isNameContinue_of_isLineEnd
    simp [readName, run]

end GraphQL
