import GraphQL.Proofs.Scanning.Marks
import GraphQL.Proofs.Scanning.Quoted

/-! Block strings, scanned by byte offsets.

A block string is scanned line by line: the mark goes on to each new line, and where the
string ends it is on the line of the closing quotes. -/

namespace GraphQL.Scanning

open Text

section

variable (text : List Char)

/-- Goes on to the closing quotes, and gives what is in front of them and the offset
behind. What has been passed since the offset `chunk` stands for itself. -/
def scanBlock : (rounds chunk offset : Nat) → (raw : List Char) → Scan (List Char × Nat)
  | 0, _, _, _ => throw .endless
  | rounds + 1, chunk, offset, raw => do
      match ← charAt text offset with
      | none => fault .unterminatedString offset
      | some char =>
          let rest ← sliceFrom text offset
          if tripleQuote.isPrefixOf rest
            then return (raw ++ (← slice text chunk offset), offset + 3)
          else if ('\\' :: tripleQuote).isPrefixOf rest then
            let passed ← slice text chunk offset
            scanBlock rounds (offset + 4) (offset + 4) (raw ++ passed ++ tripleQuote)
          else if isLineEnd char then
            let next ← passLineEnd text char offset
            scanBlock rounds chunk next raw
          else if isForbiddenControl char then fault (.invalidStringCharacter char) offset
          else scanBlock rounds chunk (offset + char.utf8Size) raw

def scanBlockString (start : Nat) : Scan (Lexeme × Nat) := do
  let (raw, stop) ← scanBlock text (byteSize text + 1) (start + 3) (start + 3) []
  return (.blockString (String.ofList (dedent raw)), stop)

end

variable {text before passed rest : List Char} {mark : Mark}

theorem tripleQuote_oneLine : ∀ char ∈ tripleQuote, isLineEnd char = false := by
  simp [tripleQuote, isLineEnd]

theorem escape_oneLine : ∀ char ∈ '\\' :: tripleQuote, isLineEnd char = false :=
  List.forall_mem_cons.mpr ⟨rfl, tripleQuote_oneLine⟩

theorem readBlock_ending {ending : List Char} (isEnding : IsLineEnding ending)
    (rest : List Char) :
    readBlock (ending ++ rest) =
      StringContent.precede ending ending (readBlock rest) := by
  have single (char : Char) (isEnd : isLineEnd char = true) (rest : List Char) :
      readBlock (char :: rest) =
        StringContent.precede [char] [char] (readBlock rest) := by
    rcases eq_of_isLineEnd isEnd with rfl | rfl <;> exact readBlock_cons nofun nofun
  cases isEnding with
  | lineFeed => exact single _ rfl rest
  | carriageReturn => exact single _ rfl rest
  | both =>
      rw [List.cons_append, single _ rfl, List.cons_append, single _ rfl, precede_precede]
      rfl

/-- What scanning a block string has come to: what reading what was left of it comes to,
with the mark where that ends. -/
structure EndsBlock (text raw before passed rest : List Char)
    (outcome : Checked (List Char × Nat) × Mark) : Prop where
  result : outcome.1 = placed (byteSize before + byteSize passed) (fun content =>
    (raw ++ passed ++ content.value,
      byteSize before + byteSize passed + byteSize content.text)) (readBlock rest)
  reaches : ∀ content, readBlock rest = .ok content →
    Reaches text outcome.2 (before ++ passed ++ content.text) content.rest

namespace EndsBlock

variable {raw covered meant rest' : List Char}
variable {outcome : Checked (List Char × Nat) × Mark}

theorem of_passed (ends : EndsBlock text raw before (passed ++ covered) rest' outcome)
    (read : readBlock rest = StringContent.precede covered covered (readBlock rest')) :
    EndsBlock text raw before passed rest outcome where
  result := by
    rw [ends.result, read, placed_precede]
    simp [Nat.add_assoc]
  reaches content same := by
    obtain ⟨inner, behind, rfl⟩ := precede_eq_ok.mp (read.symm.trans same)
    simpa using ends.reaches inner behind

theorem of_taken
    (ends : EndsBlock text (raw ++ passed ++ meant)
      (before ++ passed ++ covered) [] rest' outcome)
    (read : readBlock rest = StringContent.precede covered meant (readBlock rest')) :
    EndsBlock text raw before passed rest outcome where
  result := by
    rw [ends.result, read, placed_precede]
    simp [Nat.add_assoc]
  reaches content same := by
    obtain ⟨inner, behind, rfl⟩ := precede_eq_ok.mp (read.symm.trans same)
    simpa using ends.reaches inner behind

end EndsBlock

theorem scanBlock_ends {rounds : Nat}
    (reaches : Reaches text mark (before ++ passed) rest)
    (enough : byteSize rest < rounds) (raw : List Char) :
    EndsBlock text raw before passed rest
      (runAt mark (scanBlock text rounds (byteSize before)
        (byteSize before + byteSize passed) raw)) := by
  induction rounds generalizing mark before passed rest raw with
  | zero => cases enough
  | succ rounds induction =>
      have found : sliceFrom text (byteSize before + byteSize passed) = .ok rest := by
        rw [← byteSize_append]
        exact reaches.found
      have inside :
          slice text (byteSize before) (byteSize before + byteSize passed) = .ok passed :=
        slice_eq (sliceFrom_eq_ok.mpr ⟨before, by
          rw [reaches.whole, List.append_assoc], rfl⟩)
      rw [scanBlock, charAt_eq found, runAt_ok_bind]
      cases rest with
      | nil => exact ⟨rfl, nofun⟩
      | cons char rest =>
          have positive := char.utf8Size_pos
          rw [byteSize_cons] at enough
          simp only [List.head?_cons, found, runAt_ok_bind]
          split
          next closes =>
            obtain ⟨rest, equal⟩ := List.isPrefixOf_iff_prefix.mp closes
            cases equal
            rw [inside]
            refine ⟨?_, ?_⟩
            · change Except.ok (raw ++ passed, _) = Except.ok (raw ++ passed ++ [], _)
              rw [List.append_nil]
              rfl
            · rintro content read
              cases read
              have reaches' :
                  Reaches text mark (before ++ passed) (tripleQuote ++ rest) := reaches
              exact reaches'.append tripleQuote_oneLine
          next notQuotes =>
          split
          next escapes =>
            obtain ⟨rest, equal⟩ := List.isPrefixOf_iff_prefix.mp escapes
            cases equal
            have reaches' :
                Reaches text mark
                  (before ++ passed ++ '\\' :: tripleQuote ++ []) rest := by
              rw [List.append_nil]
              exact Reaches.append reaches escape_oneLine
            have shorter : byteSize rest < rounds := by
              change 1 + byteSize (tripleQuote ++ rest) < _ at enough
              rw [byteSize_append] at enough
              omega
            have ends := induction reaches' shorter (raw ++ passed ++ tripleQuote)
            rw [byteSize_append, byteSize_append, byteSize_nil, Nat.add_zero] at ends
            rw [inside]
            exact ends.of_taken rfl
          next notEscape =>
          split
          next isEnd =>
            obtain ⟨ending, rest', mark', split, isEnding, run, reaches'⟩ :=
              reaches.passLineEnd_eq isEnd
            have shorter := isEnding.shorter split
            rw [byteSize_cons] at shorter
            rw [List.append_assoc] at reaches'
            have ends := induction reaches' (by omega) raw
            rw [byteSize_append, ← Nat.add_assoc] at ends
            rw [byteSize_append] at run
            rw [runAt_bind, run]
            exact ends.of_passed (by rw [split, readBlock_ending isEnding])
          next notEnd =>
            have read := @readBlock_cons char rest ?_ ?_
            split
            next forbidden =>
              rw [if_pos forbidden] at read
              refine ⟨by rw [read]; rfl, ?_⟩
              rw [read]
              exact nofun
            next allowed =>
              rw [if_neg allowed] at read
              have reaches' : Reaches text mark (before ++ (passed ++ [char])) rest := by
                rw [← List.append_assoc]
                exact Reaches.append reaches
                  (List.forall_mem_singleton.mpr (Bool.not_eq_true _ ▸ notEnd))
              have ends := induction reaches' (by omega) raw
              rw [byteSize_append, ← Nat.add_assoc] at ends
              exact ends.of_passed read
            · rintro more rfl rfl
              exact notQuotes rfl
            · rintro more rfl rfl
              exact notEscape rfl

/-- A block string is scanned as it is read, and the mark is where it ends then. -/
theorem scanBlockString_eq (reaches : Reaches text mark passed (tripleQuote ++ rest)) :
    ∃ mark', runAt mark (scanBlockString text (byteSize passed)) =
        (placedToken (byteSize passed) (readBlockString rest), mark') ∧
      ∀ reading, readBlockString rest = .ok reading →
      Reaches text mark' (passed ++ reading.text) reading.rest := by
  have reaches' : Reaches text mark (passed ++ tripleQuote ++ []) rest := by
    rw [List.append_nil]
    exact reaches.append tripleQuote_oneLine
  have enough : byteSize rest < byteSize text + 1 := by
    rw [reaches'.whole, byteSize_append]
    omega
  obtain ⟨result, behind⟩ := scanBlock_ends reaches' enough []
  rw [byteSize_nil, Nat.add_zero] at result behind
  have start : byteSize passed + 3 = byteSize (passed ++ tripleQuote) :=
    (byteSize_append passed tripleQuote).symm
  rw [scanBlockString, start, runAt_bind]
  generalize runAt mark (scanBlock text _ _ _ _) = outcome at result behind
  obtain ⟨outcome, mark'⟩ := outcome
  cases result
  unfold readBlockString
  cases read : readBlock rest with
  | error misread =>
      exact ⟨mark', by simp [placedToken, Misread.after, Nat.add_assoc], nofun⟩
  | ok content =>
      refine ⟨mark', by simp [placedToken, Nat.add_assoc], ?_⟩
      rintro reading same
      cases same
      simpa using behind content read

end GraphQL.Scanning
