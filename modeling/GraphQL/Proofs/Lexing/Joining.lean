import GraphQL.Proofs.Lexing.Cutting

/-! Sources joined by a line end.

Nothing runs on over the end of a line, so the tokens of both sources are read one behind
the other, and those of the second stand as far to the right as the first is long. -/

namespace GraphQL

open Text

variable {source source' joined : Source} {cursor cursor' after : Cursor}
variable {first second tokens : List Token}

theorem Token.Matches.rebase {start start' other other' : Nat} {token token' : Token}
    (same : Token.Matches start start' token token')
    (equal : start + other' = start' + other) :
    Token.Matches other other' token token' := by
  have start_eq := same.start_eq
  have stop_eq := same.stop_eq
  exact ⟨same.lexeme_eq, by omega, by omega⟩

theorem Cursor.In.tokenStart_add (cursorIn : cursor.In source) :
    cursor.tokenStart.offset + byteSize (cursor.rest.dropWhile isIgnored) =
      source.size := by
  obtain ⟨passed, chars, offset⟩ := cursorIn
  have whole :=
    congrArg byteSize
      (List.takeWhile_append_dropWhile (p := isIgnored) (l := cursor.rest))
  rw [byteSize_append] at whole
  rw [source.size_eq, chars, byteSize_append, ← offset, ← whole, ← Nat.add_assoc]
  rfl

theorem Source.Yields.exists_takes (yields : source.Yields tokens none) :
    ∃ inside last cursor, tokens = .startOfFile :: (inside ++ [last]) ∧
      (Cursor.start source).Takes inside cursor ∧
      cursor.rest.dropWhile isIgnored = [] := by
  obtain ⟨rest, rfl, yields⟩ := yields
  obtain ⟨inside, last, rfl, lexeme, _⟩ := yields.ends
  obtain ⟨cursor, takes, yields⟩ := Cursor.Yields.takes yields
  refine ⟨inside, last, cursor, rfl, takes, ?_⟩
  cases yields with
  | last next atEnd => exact Cursor.rest_of_isEndOfFile next atEnd
  | more _ notEnd =>
      rw [Token.isEndOfFile, lexeme] at notEnd
      cases notEnd

theorem Cursor.Takes.again (takes : cursor.Takes tokens after) (nonempty : tokens ≠ [])
    (cursorIn : cursor.In source)
    (cursorIn' : cursor'.In source') {more : List Char} (breaks : Breaks more)
    (text : cursor'.rest.dropWhile isIgnored = cursor.rest.dropWhile isIgnored ++ more)
    {base base' : Nat}
    (apart : base + source'.size = base' + source.size + byteSize more) :
    ∃ tokens' after', cursor'.Takes tokens' after' ∧ after'.rest = after.rest ++ more ∧
      List.Forall₂ (Token.Matches base base') tokens tokens' := by
  obtain ⟨covered, cuts⟩ := takes.cuts nonempty
  have follows : Follows after.rest (after.rest ++ more) := by
    cases after.rest with
    | nil => exact .inr breaks
    | cons => exact .inl rfl
  have start := cursorIn.tokenStart_add
  have start' := cursorIn'.tokenStart_add
  rw [text, byteSize_append] at start'
  rw [cuts.whole, List.append_assoc] at text
  obtain ⟨tokens', after', takes', rest, same⟩ := cuts.again text follows
  exact ⟨tokens', after', takes', rest, same.imp fun _ _ each => each.rebase (by omega)⟩

/-- The tokens of two sources are those of the sources joined by a line end. -/
theorem Source.exists_takes_joined
    (body : joined.body = source.body ++ "\n" ++ source'.body)
    (takes : (Cursor.start source).Takes first cursor) (nonempty : first ≠ [])
    (nothing : cursor.rest.dropWhile isIgnored = [])
    (takes' : (Cursor.start source').Takes second cursor') (nonempty' : second ≠ []) :
    ∃ first' second' after, (Cursor.start joined).Takes (first' ++ second') after ∧
      after.rest = cursor'.rest ∧
      List.Forall₂ (Token.Matches 0 0) first first' ∧
      List.Forall₂ (Token.Matches 0 (source.size + 1)) second second' := by
  have chars : joined.chars = source.chars ++ '\n' :: source'.chars := by
    simp [Source.chars, body]
  have size : 0 + joined.size = 0 + source.size + byteSize ('\n' :: source'.chars) := by
    rw [joined.size_eq, chars, byteSize_append, ← source.size_eq, Nat.add_assoc]
  have size' : 0 + joined.size = source.size + 1 + source'.size + byteSize [] := by
    rw [size, source'.size_eq, byteSize_cons, Nat.zero_add, ← Nat.add_assoc]
    rfl
  have text : joined.chars.dropWhile isIgnored =
      source.chars.dropWhile isIgnored ++ '\n' :: source'.chars := by
    obtain ⟨covered, cuts⟩ := takes.cuts nonempty
    have whole : source.chars.dropWhile isIgnored = covered ++ cursor.rest := cuts.whole
    rw [chars, List.dropWhile_append, if_neg (by simp [whole, cuts.nonempty])]
  obtain ⟨first', middle, before, rest, same⟩ :=
    takes.again nonempty (Cursor.in_start source)
      (Cursor.in_start joined) (by simp [isLineEnd]) text size
  have text' :
      middle.rest.dropWhile isIgnored = source'.chars.dropWhile isIgnored ++ [] := by
    rw [rest, List.dropWhile_append, nothing, List.append_nil]
    rfl
  obtain ⟨second', after, behind, rest', same'⟩ :=
    takes'.again nonempty' (Cursor.in_start source')
      (before.into (Cursor.in_start joined)) breaks_nil text' size'
  exact ⟨first', second', after, before.append behind,
    rest'.trans (List.append_nil _), same, same'⟩

end GraphQL
