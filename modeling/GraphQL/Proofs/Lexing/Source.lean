import GraphQL.Proofs.Lexing.Scan

/-! All the tokens of a source. -/

namespace GraphQL

open Text

def significant (tokens : List Token) : List Token := tokens.filter Token.isSignificant

@[simp] theorem significant_append (first second : List Token) :
    significant (first ++ second) = significant first ++ significant second :=
  List.filter_append ..

theorem significant_eq_nil {tokens : List Token}
    (unseen : ∀ token ∈ tokens, token.isSignificant = false) :
    significant tokens = [] := by
  simpa [significant] using unseen

/-- What the tokens say that the grammar sees -/
def lexemes (tokens : List Token) : List Lexeme := (significant tokens).map Token.lexeme

@[simp] theorem lexemes_append (first second : List Token) :
    lexemes (first ++ second) = lexemes first ++ lexemes second := by
  simp [lexemes]

theorem significant_cons {token : Token} {tokens : List Token}
    (isSeen : token.isSignificant = true) :
    significant (token :: tokens) = token :: significant tokens :=
      List.filter_cons_of_pos isSeen

theorem lexemes_cons {token : Token} {tokens : List Token}
    (isSeen : token.isSignificant = true) :
    lexemes (token :: tokens) = token.lexeme :: lexemes tokens := by
  rw [lexemes, significant_cons isSeen, List.map_cons, lexemes]

theorem lexemes_eq_nil {tokens : List Token}
    (unseen : ∀ token ∈ tokens, token.isSignificant = false) : lexemes tokens = [] := by
  rw [lexemes, significant_eq_nil unseen, List.map_nil]

theorem lexemes_eq_filter (tokens : List Token) :
    lexemes tokens = (tokens.map Token.lexeme).filter Lexeme.isSignificant :=
      List.filter_map.symm

theorem length_lexemes_le (tokens : List Token) :
    (lexemes tokens).length ≤ tokens.length := by
  rw [lexemes, List.length_map]
  exact List.length_filter_le ..

theorem endOfFile_not_mem_lexemes {tokens : List Token}
    (unended : ∀ token ∈ tokens, token.isEndOfFile = false) :
    .endOfFile ∉ lexemes tokens := by
  intro member
  obtain ⟨token, seen, isEnd⟩ := List.mem_map.mp member
  have notEnd := unended token (List.mem_filter.mp seen).1
  rw [Token.isEndOfFile, isEnd] at notEnd
  cases notEnd

/-- The tokens count those that the grammar sees from `count` on. -/
def Numbered : (count : Nat) → List Token → Prop
  | _, [] => True
  | count, token :: rest =>
      token.ordinal = count ∧
        Numbered (if token.isSignificant then count + 1 else count) rest

theorem numbered_append {count : Nat} {first second : List Token} :
    Numbered count (first ++ second) ↔
      Numbered count first ∧ Numbered (count + (significant first).length) second := by
  induction first generalizing count with
  | nil => simp [Numbered, significant]
  | cons token first induction =>
      rw [List.cons_append, Numbered, Numbered, induction, and_assoc]
      cases isSignificant : token.isSignificant with
      | true => 
          have grow : count + 1 + (significant first).length =
              count + (significant (token :: first)).length := by
            simp [significant, isSignificant, Nat.add_assoc, Nat.add_comm 1]
          simp only [if_true, grow]
      | false =>
          have same : significant (token :: first) = significant first := by
            simp [significant, isSignificant]
          simp [same]

theorem Numbered.ordinal {tokens : List Token} {count index : Nat} {token : Token}
    (numbered : Numbered count tokens)
    (found : (significant tokens)[index]? = some token) :
    token.ordinal = count + index := by
  induction tokens generalizing count index with
  | nil => cases found
  | cons first tokens induction =>
      obtain ⟨ordinal, numbered⟩ := numbered
      cases isSignificant : first.isSignificant with
      | true =>
          rw [significant, List.filter_cons_of_pos isSignificant] at found
          rw [isSignificant, if_pos rfl] at numbered
          cases index with
          | zero =>
              cases found
              exact ordinal
          | succ index =>
              rw [induction numbered found, Nat.add_right_comm, Nat.add_assoc]
      | false =>
          rw [significant, List.filter_cons_of_neg (by simp [isSignificant])] at found
          rw [isSignificant] at numbered
          exact induction numbered found

/-! ## Sources -/

/-- All the tokens of a source, the one that begins it included, and the fault that
ends them if there is one -/
def Source.Yields (source : Source) (tokens : List Token)
    (ending : Option LexicalError) : Prop :=
  ∃ rest, tokens = .startOfFile :: rest ∧ (Cursor.start source).Yields rest ending

variable {source : Source} {tokens : List Token} {ending : Option LexicalError}

theorem Cursor.Yields.numbered {cursor : Cursor} (yields : cursor.Yields tokens ending) :
    Numbered cursor.ordinal tokens := by
  induction yields with
  | fault => trivial
  | last next =>
      obtain ⟨reading, _, rfl, rfl⟩ := Cursor.next_eq_ok.mp next
      exact ⟨rfl, trivial⟩
  | more next _ _ induction =>
      obtain ⟨reading, _, rfl, rfl⟩ := Cursor.next_eq_ok.mp next
      exact ⟨rfl, induction⟩

theorem Cursor.Yields.index_eq {cursor : Cursor}
    (yields : cursor.Yields tokens ending) {index : Nat}
    {token : Token} (found : tokens[index]? = some token) :
    token.index = cursor.index + index := by
  induction yields generalizing index with
  | fault => cases found
  | last next =>
      obtain ⟨reading, _, rfl, rfl⟩ := Cursor.next_eq_ok.mp next
      cases index with
      | zero =>
          cases found
          rfl
      | succ index => cases found
  | more next _ _ induction =>
      obtain ⟨reading, _, rfl, rfl⟩ := Cursor.next_eq_ok.mp next
      cases index with
      | zero =>
          cases found
          rfl
      | succ index =>
          rw [induction found, Cursor.behind, Nat.add_right_comm, Nat.add_assoc]

theorem Cursor.Yields.notStart {cursor : Cursor} (yields : cursor.Yields tokens ending) :
    ∀ token ∈ tokens, token.lexeme ≠ .startOfFile := by
  induction yields with
  | fault => simp
  | last next atEnd =>
      rw [List.forall_mem_singleton, lexeme_of_isEndOfFile atEnd]
      exact Lexeme.noConfusion
  | more next notEnd _ induction =>
      obtain ⟨reading, stands, rfl, _⟩ := Cursor.stands_of_next next notEnd
      exact List.forall_mem_cons.mpr ⟨stands.notStart, induction⟩

theorem Cursor.Yields.ends {cursor : Cursor} (yields : cursor.Yields tokens ending) :
    match ending with
    | none => ∃ rest last, tokens = rest ++ [last] ∧ last.lexeme = .endOfFile ∧
        ∀ token ∈ rest, token.isEndOfFile = false
    | some _ => ∀ token ∈ tokens, token.isEndOfFile = false := by
  induction yields with
  | fault => exact nofun
  | last next atEnd => exact ⟨[], _, rfl, lexeme_of_isEndOfFile atEnd, nofun⟩
  | @more cursor token after tokens ending next notEnd _ induction =>
      cases ending with
      | none =>
          obtain ⟨rest, last, rfl, atEnd, others⟩ := induction
          exact ⟨token :: rest, last, rfl, atEnd, by simpa [notEnd] using others⟩
      | some error => simpa [notEnd] using induction

theorem Source.exists_yields (source : Source) :
    ∃ tokens ending, source.Yields tokens ending := by
  obtain ⟨rest, ending, yields⟩ := (Cursor.start source).exists_yields
  exact ⟨_, ending, rest, rfl, yields⟩

namespace Source.Yields

theorem unique {tokens' : List Token} {ending' : Option LexicalError}
    (yields : source.Yields tokens ending) (yields' : source.Yields tokens' ending') :
    tokens = tokens' ∧ ending = ending' := by
  obtain ⟨rest, rfl, yields⟩ := yields
  obtain ⟨rest', rfl, yields'⟩ := yields'
  obtain ⟨rfl, rfl⟩ := yields.unique yields'
  exact ⟨rfl, rfl⟩

theorem numbered (yields : source.Yields tokens ending) : Numbered 0 tokens := by
  obtain ⟨rest, rfl, yields⟩ := yields
  exact ⟨rfl, yields.numbered⟩

theorem index_eq (yields : source.Yields tokens ending) {index : Nat} {token : Token}
    (found : tokens[index]? = some token) : token.index = index := by
  obtain ⟨rest, rfl, yields⟩ := yields
  cases index with
  | zero =>
      cases found
      rfl
  | succ index => rw [yields.index_eq found, Cursor.start, Nat.add_comm]

theorem last (yields : source.Yields tokens none) :
    ∃ rest last, tokens = rest ++ [last] ∧ last.lexeme = .endOfFile ∧
      ∀ token ∈ rest, token.isEndOfFile = false := by
  obtain ⟨rest, rfl, yields⟩ := yields
  obtain ⟨rest, last, rfl, atEnd, others⟩ := yields.ends
  refine ⟨.startOfFile :: rest, last, rfl, atEnd, ?_⟩
  simpa using ⟨rfl, others⟩

theorem nothing_after {first second : List Token} {token : Token}
    (yields : source.Yields (first ++ token :: second) ending)
    (atEnd : token.isEndOfFile = true) :
    second = [] ∧ ending = none := by
  cases ending with
  | some error =>
      obtain ⟨rest, split, yields⟩ := yields
      have others := yields.ends
      have member : token ∈ Token.startOfFile :: rest := split ▸ by simp
      rcases List.mem_cons.mp member with rfl | member
      · cases atEnd
      · exact absurd atEnd (by simpa using others token member)
  | none =>
      obtain ⟨rest, last, split, _, others⟩ := yields.last
      rcases List.eq_nil_or_concat second with rfl | ⟨second, final, rfl⟩
      · exact ⟨rfl, rfl⟩
      · rw [List.concat_eq_append, ← List.cons_append, ← List.append_assoc] at split
        obtain ⟨rfl, _⟩ := List.append_inj' split rfl
        exact absurd atEnd (by simpa using others token (by simp))

theorem length_le (yields : source.Yields tokens ending) :
    tokens.length ≤ source.size + 2 := by
  obtain ⟨rest, rfl, yields⟩ := yields
  have le := yields.length_le
  rw [source.size_eq]
  exact Nat.succ_le_succ le

end Source.Yields

def unlessFault {α : Type} (value : α) : Option LexicalError → Except LexicalError α
  | none => .ok value
  | some error => .error error

/-- Scanning to the end reads all the tokens ahead. -/
theorem Cursor.Yields.scanAll {cursor : Cursor} (yields : cursor.Yields tokens ending)
    (cursorIn : cursor.In source) :
    (cursor.scanAll source).tokens = tokens ∧
      ∀ all : List Token, (cursor.scanAll source).outcome.map (fun _ => all) =
        unlessFault all ending := by
  have isEnd : Lexeme.isEndOfFile .endOfFile = true := rfl
  have finds : Cursor.Finds Lexeme.isEndOfFile tokens ending (cursor.scanAll source) := by
    rw [Cursor.scanAll, cursorIn.remaining]
    exact yields.scan isEnd (Nat.le_refl _)
  rw [Stretch.tokens]
  cases finds with
  | found outcome split _ wanted behind =>
      rcases behind with ⟨_, rfl, rfl⟩ | ⟨notEnd, _⟩
      · rw [outcome, split]
        exact ⟨rfl, fun _ => rfl⟩
      · exact absurd wanted (by simpa [Token.isEndOfFile] using notEnd)
  | fault outcome split _ ended _ =>
      rw [outcome, split, ended]
      exact ⟨rfl, fun _ => rfl⟩

/-- A source is read as all its tokens, or not at all if a fault ends them. -/
theorem Source.Yields.tokenize_eq (yields : source.Yields tokens ending) :
    tokenize source = unlessFault tokens ending := by
  obtain ⟨rest, rfl, yields⟩ := yields
  obtain ⟨read, outcome⟩ := yields.scanAll (Cursor.in_start source)
  rw [tokenize, read, outcome]

theorem tokenize_eq_ok : tokenize source = .ok tokens ↔ source.Yields tokens none := by
  obtain ⟨all, ending, yields⟩ := source.exists_yields
  constructor
  · intro tokenized
    rw [yields.tokenize_eq] at tokenized
    cases ending with
    | none =>
        cases tokenized
        exact yields
    | some error => cases tokenized
  · exact fun yields' => yields'.tokenize_eq

end GraphQL
