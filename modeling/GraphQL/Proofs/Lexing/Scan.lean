import GraphQL.Lexer
import GraphQL.Proofs.Lexing.Token

/-! The tokens of a source, one after another.

A scan has a bound on how many tokens it reads. `Cursor.Yields` has none: it says
which tokens lie ahead, and what ends them. -/

namespace GraphQL

open Text

theorem Source.size_eq (source : Source) : source.size = byteSize source.chars := by
  have ofList :
      ∀ chars : List Char, (String.ofList chars).utf8ByteSize = byteSize chars := by
    intro chars
    induction chars with
    | nil => rfl
    | cons char chars induction =>
        rw [byteSize_cons, ← induction, ← List.singleton_append, String.ofList_append,
          String.utf8ByteSize_append]
        simp
  rw [chars, ← ofList, String.ofList_toList, size]

theorem lexeme_of_isEndOfFile {token : Token} (atEnd : token.isEndOfFile = true) :
    token.lexeme = .endOfFile := by
  unfold Token.isEndOfFile Lexeme.isEndOfFile at atEnd
  split at atEnd
  · assumption
  · cases atEnd

namespace Cursor

/-- The tokens ahead up to the end of the source, or to a fault. -/
inductive Yields : Cursor → List Token → Option LexicalError → Prop
  | fault {cursor error} : cursor.next = .error error → Yields cursor [] (some error)
  | last {cursor token after} :
      cursor.next = .ok (token, after) → token.isEndOfFile = true →
        Yields cursor [token] none
  | more {cursor token after tokens ending} :
      cursor.next = .ok (token, after) → token.isEndOfFile = false →
      Yields after tokens ending → Yields cursor (token :: tokens) ending

/-- What a scan for a token finds, when the tokens ahead are known -/
inductive Finds (wanted : Lexeme → Bool) (tokens : List Token)
    (ending : Option LexicalError) (stretch : Stretch) : Prop
  | found {token rest} :
      stretch.outcome = .ok token → tokens = stretch.passed ++ token :: rest →
      (∀ passed ∈ stretch.passed, wanted passed.lexeme = false) →
      wanted token.lexeme = true →
      (token.isEndOfFile = true ∧ rest = [] ∧ ending = none ∨
        token.isEndOfFile = false ∧ stretch.cursor.Yields rest ending) →
      Finds wanted tokens ending stretch
  | fault {error} :
      stretch.outcome = .error error → tokens = stretch.passed →
      (∀ passed ∈ stretch.passed, wanted passed.lexeme = false) → ending = some error →
      stretch.cursor.Yields [] ending → Finds wanted tokens ending stretch

variable {cursor after : Cursor} {token : Token} {tokens : List Token}
variable {ending : Option LexicalError} {source : Source}

/-! ## One token -/

def tokenStart (cursor : Cursor) : Position :=
  cursor.position.after (cursor.rest.takeWhile isIgnored)

def tokenOf (cursor : Cursor) (reading : Reading) : Token :=
  ⟨reading.lexeme, cursor.tokenStart,
    (cursor.tokenStart.after reading.text).offset, cursor.index, cursor.ordinal⟩

def behind (cursor : Cursor) (reading : Reading) : Cursor :=
  ⟨reading.rest, cursor.tokenStart.after reading.text, cursor.index + 1,
    if reading.lexeme.isSignificant then cursor.ordinal + 1 else cursor.ordinal⟩

theorem next_eq_ok :
    cursor.next = .ok (token, after) ↔
      ∃ reading, readToken (cursor.rest.dropWhile isIgnored) = .ok reading ∧
        token = cursor.tokenOf reading ∧ after = cursor.behind reading := by
  unfold next
  cases readToken (cursor.rest.dropWhile isIgnored) with
  | error misread => simp
  | ok reading =>
      constructor
      · intro outcome
        cases outcome
        exact ⟨reading, rfl, rfl, rfl⟩
      · rintro ⟨_, equal, rfl, rfl⟩
        cases equal
        rfl

theorem dropWhile_isIgnored_eq {reading : Reading}
    (read : readToken (cursor.rest.dropWhile isIgnored) = .ok reading) :
    cursor.rest.dropWhile isIgnored = reading.text ++ reading.rest := by
  by_cases empty : cursor.rest.dropWhile isIgnored = []
  · rw [empty] at read
    cases read
    exact empty
  · exact (readToken_stands empty read).whole

theorem rest_of_isEndOfFile (next : cursor.next = .ok (token, after))
    (atEnd : token.isEndOfFile = true) : cursor.rest.dropWhile isIgnored = [] := by
  obtain ⟨reading, read, rfl, rfl⟩ := next_eq_ok.mp next
  apply Decidable.byContradiction
  intro nonempty
  have stands := readToken_stands nonempty read
  apply stands.notEnd
  change reading.lexeme.isEndOfFile = true at atEnd
  cases lexeme : reading.lexeme <;> simp_all [Lexeme.isEndOfFile]

theorem stands_of_next (next : cursor.next = .ok (token, after))
    (notEnd : token.isEndOfFile = false) :
    ∃ reading, reading.Stands (cursor.rest.dropWhile isIgnored) ∧
      token = cursor.tokenOf reading ∧ after = cursor.behind reading := by
  obtain ⟨reading, read, rfl, rfl⟩ := next_eq_ok.mp next
  refine ⟨reading, readToken_stands ?_ read, rfl, rfl⟩
  intro empty
  rw [empty] at read
  cases read
  cases notEnd

theorem byteSize_lt_of_next (next : cursor.next = .ok (token, after))
    (notEnd : token.isEndOfFile = false) :
    byteSize after.rest < byteSize cursor.rest := by
  obtain ⟨reading, stands, _, rfl⟩ := stands_of_next next notEnd
  have split := List.takeWhile_append_dropWhile (p := isIgnored) (l := cursor.rest)
  rw [stands.whole] at split
  have size := congrArg byteSize split
  simp only [byteSize_append] at size
  obtain ⟨char, text, equal⟩ := List.exists_cons_of_ne_nil stands.nonempty
  have positive := char.utf8Size_pos
  rw [equal, byteSize_cons] at size
  change byteSize reading.rest < _
  omega

/-! ## All tokens ahead -/

theorem exists_yields (cursor : Cursor) :
    ∃ tokens ending, cursor.Yields tokens ending := by
  generalize size : byteSize cursor.rest = count
  induction count using Nat.strongRecOn generalizing cursor with
  | ind count induction =>
      cases next : cursor.next with
      | error error => exact ⟨[], _, .fault next⟩
      | ok result =>
          obtain ⟨token, after⟩ := result
          cases atEnd : token.isEndOfFile with
          | true => exact ⟨_, _, .last next atEnd⟩
          | false =>
              have lt := byteSize_lt_of_next next atEnd
              obtain ⟨tokens, ending, yields⟩ := induction _ (size ▸ lt) after rfl
              exact ⟨_, _, .more next atEnd yields⟩

theorem Yields.unique {tokens' : List Token} {ending' : Option LexicalError}
    (yields : cursor.Yields tokens ending) (yields' : cursor.Yields tokens' ending') :
    tokens = tokens' ∧ ending = ending' := by
  induction yields generalizing tokens' ending' with
  | fault next => cases yields' <;> simp_all
  | last next atEnd => cases yields' <;> simp_all
  | more next notEnd _ induction =>
      cases yields' with
      | fault next' => simp_all
      | last next' atEnd => simp_all
      | more next' _ yields' =>
          rw [next] at next'
          cases next'
          obtain ⟨rfl, rfl⟩ := induction yields'
          exact ⟨rfl, rfl⟩

theorem Yields.length_le (yields : cursor.Yields tokens ending) :
    tokens.length ≤ byteSize cursor.rest + 1 := by
  induction yields with
  | fault => exact Nat.zero_le _
  | last => exact Nat.le_add_left _ _
  | more next notEnd _ induction =>
      have lt := byteSize_lt_of_next next notEnd
      rw [List.length_cons]
      omega

/-! ## Scans -/

theorem scan_of_next_error {error : LexicalError} (next : cursor.next = .error error)
    (wanted : Lexeme → Bool) (limit : Nat) :
    cursor.scan wanted limit = ⟨[], .error error, cursor⟩ := by
  cases limit <;> simp only [Cursor.scan, next]

theorem Yields.scan {wanted : Lexeme → Bool} {limit : Nat}
    (yields : cursor.Yields tokens ending)
    (wantsEnd : wanted .endOfFile = true) (enough : byteSize cursor.rest ≤ limit) :
    Finds wanted tokens ending (cursor.scan wanted limit) := by
  induction yields generalizing limit with
  | @fault cursor error next =>
      rw [scan_of_next_error next]
      exact .fault rfl rfl nofun rfl (.fault next)
  | @last cursor token after next atEnd =>
      have isWanted : wanted token.lexeme = true := by
        rw [lexeme_of_isEndOfFile atEnd]
        exact wantsEnd
      have same : cursor.scan wanted limit = ⟨[], .ok token, after⟩ := by
        cases limit <;> simp only [Cursor.scan, next, isWanted, if_true]
      rw [same]
      exact .found rfl rfl nofun isWanted (.inl ⟨atEnd, rfl, rfl⟩)
  | @more cursor token after tokens ending next notEnd yields induction =>
      have lt := byteSize_lt_of_next next notEnd
      cases limit with
      | zero => omega
      | succ limit =>
          cases isWanted : wanted token.lexeme with
          | true =>
              have same : cursor.scan wanted (limit + 1) = ⟨[], .ok token, after⟩ := by
                simp only [Cursor.scan, next, isWanted, if_true]
              rw [same]
              exact .found rfl rfl nofun isWanted (.inr ⟨notEnd, yields⟩)
          | false =>
              have same : cursor.scan wanted (limit + 1) =
                  { after.scan wanted limit with
                    passed := token :: (after.scan wanted limit).passed } := by
                simp only [Cursor.scan, next, isWanted]
                rfl
              rw [same]
              have enough' : byteSize after.rest ≤ limit := by omega
              cases induction enough' with
              | found outcome split passed isWanted' behind =>
                  refine .found outcome (congrArg (token :: ·) split) ?_ isWanted' behind
                  simpa [isWanted] using passed
              | fault outcome split passed ended behind =>
                  refine .fault outcome (congrArg (token :: ·) split) ?_ ended behind
                  simpa [isWanted] using passed

/-! ## Cursors in a source -/

/-- The cursor has come through the source to where it stands. -/
def In (source : Source) (cursor : Cursor) : Prop :=
  ∃ passed, source.chars = passed ++ cursor.rest ∧
    cursor.position.offset = byteSize passed

theorem in_start (source : Source) : (start source).In source := ⟨[], rfl, rfl⟩

theorem In.next (cursorIn : cursor.In source) (next : cursor.next = .ok (token, after)) :
    after.In source := by
  obtain ⟨reading, read, rfl, rfl⟩ := next_eq_ok.mp next
  obtain ⟨passed, chars, offset⟩ := cursorIn
  have whole := dropWhile_isIgnored_eq read
  refine ⟨passed ++ cursor.rest.takeWhile isIgnored ++ reading.text, ?_, ?_⟩
  · rw [List.append_assoc, List.append_assoc, behind, ← whole,
      List.takeWhile_append_dropWhile, chars]
  · rw [byteSize_append, byteSize_append, behind, tokenStart, Position.after,
      Position.after, offset]

theorem In.remaining (cursorIn : cursor.In source) :
    cursor.remaining source = byteSize cursor.rest := by
  obtain ⟨passed, chars, offset⟩ := cursorIn
  rw [Cursor.remaining, source.size_eq, chars, byteSize_append, offset,
    Nat.add_sub_cancel_left]

theorem In.scan (cursorIn : cursor.In source) (wanted : Lexeme → Bool) (limit : Nat) :
    (cursor.scan wanted limit).cursor.In source := by
  induction limit generalizing cursor with
  | zero =>
      rw [Cursor.scan]
      split
      next => exact cursorIn
      next next => exact cursorIn.next next
  | succ limit induction =>
      rw [Cursor.scan]
      split
      next => exact cursorIn
      next next =>
        split
        · exact cursorIn.next next
        · exact induction (cursorIn.next next)

end Cursor

end GraphQL
