import GraphQL.Proofs.Lexing.Tiling
import Mathlib.Data.List.Forall2

/-! Tokens of a part of a source.

The text from the beginning of one token to the end of another is read as those tokens
wherever it stands, if the last of them does not run on. -/

namespace GraphQL

open Text

/-- The tokens say the same, and stand as far behind one offset as behind another. -/
structure Token.Matches (start start' : Nat) (token token' : Token) : Prop where
  lexeme_eq : token'.lexeme = token.lexeme
  start_eq : token'.start.offset + start = token.start.offset + start'
  stop_eq : token'.stop + start = token.stop + start'

section

variable {start start' : Nat} {tokens tokens' : List Token}

theorem lexemes_eq_of_matches
    (same : List.Forall₂ (Token.Matches start start') tokens tokens') :
    tokens'.map Token.lexeme = tokens.map Token.lexeme := by
  induction same with
  | nil => rfl
  | cons first _ induction =>
      rw [List.map_cons, List.map_cons, first.lexeme_eq, induction]

theorem exists_matching (same : List.Forall₂ (Token.Matches start start') tokens tokens')
    (front front' back back' : List Token) {index : Nat} (lt : index < tokens.length) :
    ∃ token token', (front ++ (tokens ++ back))[front.length + index]? = some token ∧
      (front' ++ (tokens' ++ back'))[front'.length + index]? = some token' ∧
        token.Matches start start' token' := by
  obtain ⟨length, all⟩ := List.forall₂_iff_get.mp same
  have found :
      ∀ (front back : List Token) {tokens : List Token} (lt : index < tokens.length),
      (front ++ (tokens ++ back))[front.length + index]? = some tokens[index] := by
    intro front back tokens lt
    rw [List.getElem?_append_right (Nat.le_add_right ..), Nat.add_sub_cancel_left,
      List.getElem?_append_left lt, List.getElem?_eq_getElem lt]
  exact ⟨_, _, found front back lt, found front' back' (length ▸ lt),
    all index lt (length ▸ lt)⟩

theorem significant_matches
    (same : List.Forall₂ (Token.Matches start start') tokens tokens') :
    List.Forall₂ (Token.Matches start start') (significant tokens)
      (significant tokens') :=
  List.rel_filter (fun token token' each => by
    simp only [Token.isSignificant, each.lexeme_eq])
    same

end

namespace Cursor

/-- The tokens from one place to another, none of which ends the source -/
inductive Takes : Cursor → List Token → Cursor → Prop
  | nil {cursor} : Takes cursor [] cursor
  | cons {cursor token middle tokens after} :
      cursor.next = .ok (token, middle) → token.isEndOfFile = false →
      Takes middle tokens after → Takes cursor (token :: tokens) after

variable {cursor cursor' middle after : Cursor} {token : Token}
variable {tokens first second : List Token}
variable {ending : Option LexicalError} {source : Source}

/-! ## From one place to another -/

theorem Takes.yields (takes : cursor.Takes first after)
    (yields : after.Yields second ending) :
    cursor.Yields (first ++ second) ending := by
  induction takes with
  | nil => exact yields
  | cons next notEnd _ induction => exact .more next notEnd (induction yields)

theorem Takes.append (takes : cursor.Takes first middle)
    (takes' : middle.Takes second after) :
    cursor.Takes (first ++ second) after := by
  induction takes with
  | nil => exact takes'
  | cons next notEnd _ induction => exact .cons next notEnd (induction takes')

theorem Takes.into (takes : cursor.Takes tokens after) (cursorIn : cursor.In source) :
    after.In source := by
  induction takes with
  | nil => exact cursorIn
  | cons next _ _ induction => exact induction (cursorIn.next next)

theorem Yields.takes (yields : cursor.Yields (first ++ token :: second) ending) :
    ∃ after, cursor.Takes first after ∧ after.Yields (token :: second) ending := by
  induction first generalizing cursor with
  | nil => exact ⟨cursor, .nil, yields⟩
  | cons next first induction =>
      generalize split : next :: first ++ token :: second = tokens at yields
      cases yields with
      | fault => simp at split
      | last => simp at split
      | more found notEnd rest =>
          rw [List.cons_append, List.cons.injEq] at split
          obtain ⟨rfl, rfl⟩ := split
          obtain ⟨after, takes, yields⟩ := induction rest
          exact ⟨after, .cons found notEnd takes, yields⟩

theorem yields_nil (nothing : cursor.rest.dropWhile isIgnored = []) :
    ∃ token, cursor.Yields [token] none ∧ token.lexeme = .endOfFile := by
  have read : readToken (cursor.rest.dropWhile isIgnored) = .ok ⟨.endOfFile, [], []⟩ := by
    rw [nothing]
    rfl
  exact ⟨_, .last (next_eq_ok.mpr ⟨_, read, rfl, rfl⟩) rfl, rfl⟩

/-! ## The text that tokens are taken from -/

/-- The tokens are taken from the text, and are taken from it as well elsewhere. -/
structure Cuts (cursor : Cursor) (tokens : List Token) (covered : List Char)
    (after : Cursor) : Prop where
  nonempty : covered ≠ []
  whole : cursor.rest.dropWhile isIgnored = covered ++ after.rest
  start : tokens.head?.map (·.start.offset) = some cursor.tokenStart.offset
  stop : tokens.getLast?.map Token.stop =
    some (cursor.tokenStart.offset + byteSize covered)
  offset : after.position.offset = cursor.tokenStart.offset + byteSize covered
  again : ∀ {cursor' : Cursor} {rest}, cursor'.rest.dropWhile isIgnored =
    covered ++ rest →
    Follows after.rest rest → ∃ tokens' after', cursor'.Takes tokens' after' ∧
    after'.rest = rest ∧
      List.Forall₂
        (Token.Matches cursor.tokenStart.offset cursor'.tokenStart.offset) tokens tokens'

theorem Cuts.clear {covered : List Char} (cuts : cursor.Cuts tokens covered after)
    (rest : List Char) :
    ∀ char ∈ (covered ++ rest).head?, isIgnored char = false := by
  have stops := dropWhile_stops isIgnored cursor.rest
  obtain ⟨char, covered, rfl⟩ := List.exists_cons_of_ne_nil cuts.nonempty
  rwa [cuts.whole] at stops

theorem matches_tokenOf (reading : Reading) (rest : List Char) :
    Token.Matches cursor.tokenStart.offset cursor'.tokenStart.offset
      (cursor.tokenOf reading)
      (cursor'.tokenOf { reading with rest }) := by
  refine ⟨rfl, Nat.add_comm .., ?_⟩
  simp only [tokenOf, Position.after]
  omega

theorem next_again {reading : Reading} {rest : List Char}
    (stands : reading.Stands (cursor.rest.dropWhile isIgnored))
    (text : cursor'.rest.dropWhile isIgnored = reading.text ++ rest)
    (follows : Follows reading.rest rest) :
    cursor'.next = .ok (cursor'.tokenOf { reading with rest },
      cursor'.behind { reading with rest }) := by
  refine next_eq_ok.mpr ⟨_, ?_, rfl, rfl⟩
  rw [text]
  exact stands.again follows

theorem cuts_one {reading : Reading}
    (stands : reading.Stands (cursor.rest.dropWhile isIgnored))
    (notEnd : (cursor.tokenOf reading).isEndOfFile = false) :
    cursor.Cuts [cursor.tokenOf reading] reading.text (cursor.behind reading) where
  nonempty := stands.nonempty
  whole := stands.whole
  start := rfl
  stop := rfl
  offset := rfl
  again text follows :=
    ⟨_, _, .cons (next_again stands text follows) notEnd .nil, rfl,
      .cons (matches_tokenOf ..) .nil⟩

theorem Cuts.cons {reading : Reading} {covered : List Char}
    (stands : reading.Stands (cursor.rest.dropWhile isIgnored))
    (notEnd : (cursor.tokenOf reading).isEndOfFile = false)
    (cuts : (cursor.behind reading).Cuts tokens covered after) :
    cursor.Cuts (cursor.tokenOf reading :: tokens)
      (reading.text ++ (reading.rest.takeWhile isIgnored ++ covered)) after := by
  have behind :
      reading.rest = reading.rest.takeWhile isIgnored ++ (covered ++ after.rest) := by
    rw [← cuts.whole]
    exact List.takeWhile_append_dropWhile.symm
  have start : (cursor.behind reading).tokenStart.offset = cursor.tokenStart.offset +
      byteSize reading.text + byteSize (reading.rest.takeWhile isIgnored) := rfl
  refine ⟨by simp [cuts.nonempty], ?_, rfl, ?_, ?_, fun {cursor' rest} text follows => ?_⟩
  · rw [stands.whole, List.append_assoc, List.append_assoc, ← behind]
  · obtain ⟨last, found, stop⟩ := Option.map_eq_some_iff.mp cuts.stop
    rw [List.getLast?_cons, found, Option.getD_some, Option.map_some, stop, start]
    simp only [byteSize_append, Nat.add_assoc]
  · rw [cuts.offset, start]
    simp only [byteSize_append, Nat.add_assoc]
  · rw [List.append_assoc, List.append_assoc] at text
    let rest' := reading.rest.takeWhile isIgnored ++ (covered ++ rest)
    have follows' : Follows reading.rest rest' := by
      rw [behind]
      exact (follows.append covered).append _
    have next := next_again stands text follows'
    obtain ⟨gap, further⟩ := takeWhile_again isIgnored reading.rest (cuts.clear rest)
    have text' :
        (cursor'.behind { reading with rest := rest' }).rest.dropWhile isIgnored =
        covered ++ rest := further
    obtain ⟨tokens', after', takes, rest_eq, same⟩ := cuts.again text' follows
    refine ⟨_, after', .cons next notEnd takes, rest_eq, .cons (matches_tokenOf ..) ?_⟩
    -- Both tokens cover the same text, and the same is ignored behind them.
    have start' : (cursor'.behind { reading with rest := rest' }).tokenStart.offset =
        cursor'.tokenStart.offset + byteSize reading.text +
          byteSize (reading.rest.takeWhile isIgnored) := by
      rw [← gap]
      rfl
    rw [start, start'] at same
    refine same.imp fun token token' each => ⟨each.lexeme_eq, ?_, ?_⟩
    · have := each.start_eq
      omega
    · have := each.stop_eq
      omega

theorem Takes.cuts (takes : cursor.Takes tokens after) (nonempty : tokens ≠ []) :
    ∃ covered, cursor.Cuts tokens covered after := by
  induction takes with
  | nil => exact (nonempty rfl).elim
  | @cons cursor token middle tokens after next notEnd takes induction =>
      obtain ⟨reading, stands, rfl, rfl⟩ := stands_of_next next notEnd
      cases tokens with
      | nil =>
          cases takes
          exact ⟨_, cuts_one stands notEnd⟩
      | cons second tokens =>
          obtain ⟨covered, cuts⟩ := induction (by simp)
          exact ⟨_, .cons stands notEnd cuts⟩

end Cursor

/-- Tokens up to where nothing is left are all the tokens of a source but its
beginning and its end. -/
theorem Source.exists_yields_of_takes {source : Source} {cursor : Cursor}
    {tokens : List Token}
    (takes : (Cursor.start source).Takes tokens cursor)
    (nothing : cursor.rest.dropWhile isIgnored = []) :
    ∃ last, source.Yields (.startOfFile :: (tokens ++ [last])) none ∧
      significant (.startOfFile :: (tokens ++ [last])) =
        .startOfFile :: (significant tokens ++ [last]) ∧
        lexemes (.startOfFile :: (tokens ++ [last])) =
          .startOfFile :: (lexemes tokens ++ [.endOfFile]) := by
  obtain ⟨last, yields, atEnd⟩ := Cursor.yields_nil nothing
  have isSeen : last.isSignificant = true := by
    simp [Token.isSignificant, atEnd, Lexeme.isSignificant, Lexeme.isComment]
  have begins : Token.startOfFile.isSignificant = true := rfl
  refine ⟨last, ⟨_, rfl, takes.yields yields⟩, ?_, ?_⟩
  · rw [significant_cons begins, significant_append, significant_cons isSeen]
    rfl
  · rw [lexemes_cons begins, lexemes_append, lexemes_cons isSeen, atEnd]
    rfl

/-- The source is one token from its beginning to its end. -/
def Source.IsToken (source : Source) (lexeme : Lexeme) : Prop :=
  ∃ last, tokenize source =
    .ok [.startOfFile, ⟨lexeme, .origin, source.size, 1, 1⟩, last] ∧
    last.lexeme = .endOfFile

theorem Source.isToken_of_readToken {text : List Char} {lexeme : Lexeme}
    (read : readToken text = .ok ⟨lexeme, text, []⟩) (notEnd : lexeme.isEndOfFile = false)
    (clear : ∀ char ∈ text.head?, isIgnored char = false) (name : String)
    (offset : Location) : Source.IsToken ⟨String.ofList text, name, offset⟩ lexeme := by
  generalize same : Source.mk (String.ofList text) name offset = source
  have chars : source.chars = text := same ▸ String.toList_ofList
  obtain ⟨nothing, all⟩ : text.takeWhile isIgnored = [] ∧
      text.dropWhile isIgnored = text :=
    takeWhile_again isIgnored [] clear
  have tokenStart : (Cursor.start source).tokenStart = .origin := by
    rw [Cursor.tokenStart, Cursor.start, chars, nothing]
    rfl
  have token : (Cursor.start source).tokenOf ⟨lexeme, text, []⟩ =
      ⟨lexeme, .origin, source.size, 1, 1⟩ := by
    rw [Cursor.tokenOf, tokenStart, Position.after, Position.origin, Nat.zero_add,
      source.size_eq, chars]
    rfl
  have ahead : (Cursor.start source).rest.dropWhile isIgnored = text :=
    (congrArg _ chars).trans all
  have next : (Cursor.start source).next = .ok (_, _) :=
    Cursor.next_eq_ok.mpr ⟨_, (congrArg readToken ahead).trans read, rfl, rfl⟩
  obtain ⟨last, yields, atEnd⟩ :
      ∃ last, ((Cursor.start source).behind ⟨lexeme, text, []⟩).Yields [last] none ∧
      last.lexeme = .endOfFile := Cursor.yields_nil rfl
  rw [token] at next
  exact ⟨last, tokenize_eq_ok.mpr ⟨_, rfl, .more next notEnd yields⟩, atEnd⟩

/-! ## Parts of a source -/

section

variable {tokens front part back : List Token}

theorem exists_last (nonempty : significant tokens ≠ []) :
    ∃ row rest, tokens = row ++ rest ∧ significant row = significant tokens ∧
      significant rest = [] ∧
      row.getLast? = (significant tokens).getLast? := by
  obtain ⟨most, last, equal⟩ := (List.eq_nil_or_concat _).resolve_left nonempty
  rw [List.concat_eq_append] at equal
  obtain ⟨row, rest, rfl, rfl, single⟩ := List.filter_eq_append_iff.mp equal
  obtain ⟨between, behind, rfl, unseen, isSeen, nothing⟩ :=
    List.filter_eq_cons_iff.mp single
  have nothing' : significant between = [] := List.filter_eq_nil_iff.mpr unseen
  have seen : significant [last] = [last] := significant_cons isSeen
  refine ⟨row ++ (between ++ [last]), behind, by simp, ?_, nothing, ?_⟩
  · rw [equal, significant_append, significant_append, nothing', seen]
    rfl
  · rw [equal, ← List.append_assoc, List.getLast?_concat, List.getLast?_concat]

theorem exists_row (split : significant tokens = front ++ (part ++ back))
    (nonempty : part ≠ []) :
    ∃ before row behind, tokens = before ++ (row ++ behind) ∧ significant before = front ∧
      significant row = part ∧ significant behind = back ∧ row.head? = part.head? ∧
        row.getLast? = part.getLast? := by
  obtain ⟨before, _, rfl, rfl, split'⟩ := List.filter_eq_append_iff.mp split
  obtain ⟨row, behind, rfl, rfl, rfl⟩ := List.filter_eq_append_iff.mp split'
  obtain ⟨row, rest, rfl, same, unseen, last⟩ := exists_last nonempty
  obtain ⟨first, more, equal⟩ := List.exists_cons_of_ne_nil nonempty
  obtain ⟨between, row, rfl, unseen', isSeen, _⟩ :=
    List.filter_eq_cons_iff.mp (same.trans equal)
  have nothing : significant between = [] := List.filter_eq_nil_iff.mpr unseen'
  refine ⟨before ++ between, first :: row, rest ++ behind, by simp, ?_, ?_, ?_, ?_, ?_⟩
  · rw [significant_append, nothing, List.append_nil]
    rfl
  · rw [significant_append, nothing] at same
    exact same
  · rw [significant_append, unseen]
    rfl
  · exact (congrArg List.head? equal).symm
  · exact (List.getLast?_append_of_ne_nil _ (by simp)).symm.trans last

end

/-- The text from one of the tokens to another. A source that begins with it begins with
the same tokens. -/
theorem Source.Yields.cut {source : Source} {tokens front part back : List Token}
    {ending : Option LexicalError}
    {first last : Token} (yields : source.Yields tokens ending)
    (split : significant tokens = front ++ (part ++ back)) (begun : front ≠ [])
    (further : back ≠ [])
    (first_eq : part.head? = some first) (last_eq : part.getLast? = some last) :
    ∃ before covered after,
      source.Holds before covered after ⟨first.start.offset, last.stop⟩ ∧
      ∀ (source' : Source) (rest : List Char), source'.chars =
        covered ++ rest → Breaks rest →
        ∃ tokens' cursor, (Cursor.start source').Takes tokens' cursor ∧
        cursor.rest = rest ∧
          List.Forall₂ (Token.Matches first.start.offset 0) part
            (significant tokens') := by
  have nonempty : part ≠ [] := fun nothing => by simp [nothing] at first_eq
  obtain ⟨before, row, behind, rfl, rfl, rfl, rfl, first_eq', last_eq'⟩ :=
    exists_row split nonempty
  rw [first_eq] at first_eq'
  rw [last_eq] at last_eq'
  obtain ⟨_, before, rfl⟩ :=
    List.exists_cons_of_ne_nil (l := before) fun nothing => begun (by rw [nothing]; rfl)
  obtain ⟨next, behind, rfl⟩ :=
    List.exists_cons_of_ne_nil (l := behind) fun nothing => further (by rw [nothing]; rfl)
  obtain ⟨ahead, equal, yields⟩ := yields
  rw [List.cons_append, List.cons.injEq] at equal
  obtain ⟨rfl, rfl⟩ := equal
  obtain ⟨other, row, rfl⟩ :=
    List.exists_cons_of_ne_nil (l := row) fun nothing => nonempty (by rw [nothing]; rfl)
  obtain rfl : first = other := (Option.some.inj first_eq').symm
  obtain ⟨cursor, passed, yields⟩ := Cursor.Yields.takes yields
  obtain ⟨after, takes, _⟩ : ∃ after, cursor.Takes (first :: row) after ∧
      after.Yields (next :: behind) ending := yields.takes
  obtain ⟨covered, cuts⟩ := takes.cuts (by simp)
  have start : first.start.offset = cursor.tokenStart.offset := by simpa using cuts.start
  have stop : last.stop = cursor.tokenStart.offset + byteSize covered := by
    have stop := cuts.stop
    rw [last_eq'] at stop
    exact Option.some.inj stop
  obtain ⟨text, chars, offset⟩ := passed.into (Cursor.in_start source)
  refine ⟨text ++ cursor.rest.takeWhile isIgnored, covered, after.rest, ⟨?_, ?_, ?_⟩, ?_⟩
  · rw [chars, List.append_assoc, ← cuts.whole, List.takeWhile_append_dropWhile]
  · rw [start, byteSize_append, ← offset]
    rfl
  · rw [stop, byteSize_append, byteSize_append, ← offset]
    rfl
  · intro source' rest chars' breaks
    obtain ⟨nothing, all⟩ : (covered ++ rest).takeWhile isIgnored = [] ∧
        (covered ++ rest).dropWhile isIgnored = covered ++ rest :=
      takeWhile_again isIgnored [] (cuts.clear rest)
    rw [← chars'] at nothing all
    have text' : (Cursor.start source').rest.dropWhile isIgnored = covered ++ rest :=
      all.trans chars'
    obtain ⟨tokens', after', takes', rest_eq, same⟩ := cuts.again text' (.inr breaks)
    have start' : (Cursor.start source').tokenStart.offset = 0 := by
      change 0 + byteSize (source'.chars.takeWhile isIgnored) = 0
      rw [nothing]
      rfl
    rw [start', ← start] at same
    exact ⟨tokens', after', takes', rest_eq, significant_matches same⟩

end GraphQL
