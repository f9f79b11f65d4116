import GraphQL.Proofs.Derivation.Phrase
import GraphQL.Proofs.Lexing.Names

/-! Texts for tokens.

Names and marks that are written each on a line of its own are read again. -/

namespace GraphQL

open Text

def Lexeme.plainText : Lexeme → List Char
  | punctuator mark => mark.text.toList
  | name text => text.toList
  | _ => []

theorem Lexeme.isReadFrom_plainText {lexeme : Lexeme} (isPlain : lexeme.isPlain = true) :
    lexeme.IsReadFrom lexeme.plainText := by
  cases lexeme with
  | punctuator mark => cases mark <;> exact ⟨List.cons_ne_nil _ _, rfl⟩
  | name text => exact (isName_iff.mpr (Bool.and_eq_true_iff.mp isPlain)).isReadFrom
  | _ => cases isPlain

/-- Names and marks, each on a line of its own -/
def write (said : List Lexeme) : List Char :=
  said.flatMap fun lexeme => '\n' :: lexeme.plainText

theorem breaks_write (said : List Lexeme) : Breaks (write said) := by
  cases said with
  | nil => exact breaks_nil
  | cons => exact breaks_cons.mpr rfl

theorem laidOut_write {said : List Lexeme}
    (plain : ∀ lexeme ∈ said, lexeme.isPlain = true) :
    LaidOut said (write said) := by
  induction said with
  | nil => exact .nothing rfl
  | cons lexeme said induction =>
      obtain ⟨isPlain, plain⟩ := List.forall_mem_cons.mp plain
      have gap : ['\n'].all isIgnored = true := rfl
      refine .token gap (Lexeme.isReadFrom_plainText isPlain) (fun char first => ?_)
        (induction plain)
      exact Lexeme.runsOn_of_isLineEnd (breaks_write said char first)

/-- What is written is read again, up to the end. -/
theorem Cursor.takes_write {said : List Lexeme}
    (plain : ∀ lexeme ∈ said, lexeme.isPlain = true)
    {cursor : Cursor} (written : cursor.rest = write said) :
    ∃ tokens after, cursor.Takes tokens after ∧ after.rest.dropWhile isIgnored = [] ∧
      lexemes tokens = said := by
  obtain ⟨tokens, after, takes, nothing, rfl⟩ := (laidOut_write plain).takes written
  refine ⟨tokens, after, takes, nothing, ?_⟩
  rw [lexemes_eq_filter, List.filter_eq_self]
  intro lexeme member
  have isPlain := plain lexeme member
  cases lexeme <;> first | rfl | cases isPlain

end GraphQL
