import GraphQL.Proofs.Lexing.Laying

/-! Names.

A name is a letter or an underscore, and letters, digits and underscores behind it. Tokens
that are names have such texts, and such texts are read as names. -/

namespace GraphQL

open Text

/-- A letter or an underscore, and then letters, digits and underscores -/
def IsName (text : String) : Prop :=
  ∃ first rest, text.toList = first :: rest ∧ (first.isAlpha = true ∨ first = '_') ∧
    ∀ char ∈ rest, char.isAlphanum = true ∨ char = '_'

theorem isNameStart_iff {char : Char} :
    isNameStart char = true ↔ char.isAlpha = true ∨ char = '_' := by
  simp [isNameStart, or_comm]

theorem isNameContinue_iff {char : Char} :
    isNameContinue char = true ↔ char.isAlphanum = true ∨ char = '_' := by
  simp [isNameContinue, or_comm]

theorem isName_iff {text : String} : IsName text ↔
    text.toList.head?.any isNameStart = true ∧ text.toList.all isNameContinue = true := by
  rw [IsName, List.all_eq_true]
  constructor
  · rintro ⟨first, rest, equal, starts, continues⟩
    have starts := isNameStart_iff.mpr starts
    rw [equal, List.forall_mem_cons]
    exact ⟨starts, isNameContinue_of_isNameStart starts,
      fun char member => isNameContinue_iff.mpr (continues char member)⟩
  · rintro ⟨starts, continues⟩
    cases equal : text.toList with
    | nil =>
        rw [equal] at starts
        cases starts
    | cons first rest =>
        rw [equal] at starts continues
        exact ⟨first, rest, rfl, isNameStart_iff.mp starts,
          fun char member =>
            isNameContinue_iff.mp (continues char (List.mem_cons_of_mem first member))⟩

/-! ## Tokens that are names -/

theorem readName_of_readToken {text : List Char} {reading : Reading} {word : String}
    (read : readToken text = .ok reading) (isName : reading.lexeme = .name word) :
    text.head?.any isNameStart = true ∧ reading = readName text := by
  rcases readToken_of_isWord read (by rw [isName]; rfl) with outcome | named
  · rcases (readNumber_covers outcome).2 with lexeme | lexeme <;> simp [lexeme] at isName
  · exact named

theorem isName_of_readToken {text : List Char} {reading : Reading} {word : String}
    (read : readToken text = .ok reading) (lexeme : reading.lexeme = .name word) :
    IsName word := by
  obtain ⟨starts, rfl⟩ := readName_of_readToken read lexeme
  obtain rfl : String.ofList (text.takeWhile isNameContinue) = word :=
    Lexeme.name.inj lexeme
  rw [isName_iff, String.toList_ofList]
  refine ⟨?_, List.all_takeWhile⟩
  cases text with
  | nil => cases starts
  | cons char text =>
      rw [List.takeWhile_cons, if_pos (isNameContinue_of_isNameStart starts)]
      exact starts

theorem Source.Yields.isName {source : Source} {tokens : List Token}
    (yields : source.Yields tokens none)
    {word : String} (member : .name word ∈ lexemes tokens) : IsName word := by
  obtain ⟨token, seen, lexeme⟩ := List.mem_map.mp member
  have tiles := tiles_of_tokenize (tokenize_eq_ok.mpr yields)
  have read := (tiles.tile token (List.mem_of_mem_filter seen)).read (by rw [lexeme]; rfl)
  exact isName_of_readToken read lexeme

/-! ## Names as tokens -/

theorem Punctuator.ofChar?_eq_none {char : Char} (starts : isNameStart char = true) :
    ofChar? char = none := by
  unfold ofChar?
  split
  all_goals first | rfl | cases starts

theorem not_isDigit_of_isNameStart {char : Char} (starts : isNameStart char = true) :
    (char == '-' || char.isDigit) = false := by
  rw [Bool.or_eq_false_iff]
  refine ⟨?_, ?_⟩
  · rw [beq_eq_false_iff_ne]
    rintro rfl
    cases starts
  · rw [Bool.eq_false_iff]
    intro isDigit
    have most : char.toNat ≤ '9'.toNat := (Char.isDigit_iff_toNat.mp isDigit).2
    have letters : '9'.toNat < 'A'.toNat ∧ '9'.toNat < 'a'.toNat := by decide
    rcases Bool.or_eq_true_iff.mp starts with underscore | letter
    · rw [beq_iff_eq] at underscore
      subst underscore
      cases isDigit
    · rcases Bool.or_eq_true_iff.mp letter with upper | lower
      · have least : 'A'.toNat ≤ char.toNat :=
          UInt32.le_iff_toNat_le.mp (of_decide_eq_true upper).1
        omega
      · have least : 'a'.toNat ≤ char.toNat :=
          UInt32.le_iff_toNat_le.mp (of_decide_eq_true (Bool.and_eq_true_iff.mp lower).1)
        omega

theorem IsName.isReadFrom {text : String} (isName : IsName text) :
    (Lexeme.name text).IsReadFrom text.toList := by
  obtain ⟨starts, continues⟩ := isName_iff.mp isName
  cases equal : text.toList with
  | nil =>
      rw [equal] at starts
      cases starts
  | cons char rest =>
      rw [equal] at starts continues
      change isNameStart char = true at starts
      have other : char ∉ ['.', '"', '#'] := by
        intro member
        simp only [List.mem_cons, List.not_mem_nil, or_false] at member
        rcases member with rfl | rfl | rfl <;> cases starts
      have all := List.all_eq_true.mp continues
      refine ⟨List.cons_ne_nil _ _, ?_⟩
      rw [readToken_of_other other, Punctuator.ofChar?_eq_none starts]
      simp only [not_isDigit_of_isNameStart starts, starts, if_true]
      rw [readName, List.takeWhile_eq_self_iff.mpr all,
        List.dropWhile_eq_nil_iff.mpr all, ← equal, String.ofList_toList]
      rfl

end GraphQL
