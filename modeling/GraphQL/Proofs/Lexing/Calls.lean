import GraphQL.Proofs.Lexing.Lexer

/-! Reading a source on demand comes to the same as reading it at once.

However a lexer is asked, it goes through the tokens that one scan of its source reads,
in their order. -/

namespace GraphQL

/-- The tokens of a source, read at once, up to its end or to the first fault -/
def Source.scanned (source : Source) : List Token :=
  .startOfFile :: ((Cursor.start source).scanAll source).tokens

theorem Source.Yields.scanned_eq {source : Source} {tokens : List Token}
    {ending : Option LexicalError}
    (yields : source.Yields tokens ending) : source.scanned = tokens := by
  obtain ⟨rest, rfl, yields⟩ := yields
  rw [scanned, (yields.scanAll (Cursor.in_start source)).1]

namespace Lexer

/-! ## Calls -/

inductive Call where
  | advance
  | lookahead
  deriving DecidableEq, Repr

def call (lexer : Lexer) : Call → Except LexicalError Token × Lexer
  | .advance => lexer.advance
  | .lookahead => lexer.lookahead

def run (lexer : Lexer) : List Call → Lexer
  | [] => lexer
  | call :: calls => (lexer.call call).2.run calls

/-- The tokens to which those of the calls move on that succeed in it -/
def visited (lexer : Lexer) : List Call → List Token
  | [] => []
  | call :: calls =>
      match call, (lexer.call call).1 with
      | .advance, .ok token => token :: (lexer.call call).2.visited calls
      | _, _ => (lexer.call call).2.visited calls

variable {source : Source} {tokens ahead : List Token} {ending : Option LexicalError}
variable {lexer : Lexer}

/-! ## One call -/

/-- The lexer moves along the tokens, with some of them ahead that the grammar sees, and
remembers one of those passed. -/
structure Moves (source : Source) (tokens : List Token) (ending : Option LexicalError)
    (lexer : Lexer) (ahead : List Token) : Prop where
  along : ∃ unread, lexer.Along source tokens ending unread ∧
    ahead = significant (lexer.after ++ unread)
  last : lexer.last ∈ lexer.current :: lexer.before

inductive Advances (source : Source) (tokens : List Token) (ending : Option LexicalError)
    (lexer : Lexer) :
    (ahead : List Token) → Except LexicalError Token × Lexer → Prop
  | atEnd {lexer'} : lexer.current.isEndOfFile = true → lexer'.current = lexer.current →
      lexer'.Moves source tokens ending [] →
      Advances source tokens ending lexer [] (.ok lexer.current, lexer')
  | moved {token ahead lexer'} :
      lexer'.current = token → lexer'.Moves source tokens ending ahead →
      Advances source tokens ending lexer (token :: ahead) (.ok token, lexer')
  | fault {error lexer'} : lexer'.current = lexer.current →
      lexer'.Moves source tokens ending [] →
      Advances source tokens ending lexer [] (.error error, lexer')

theorem moves_start (yields : source.Yields tokens ending) :
    ∃ ahead, (start source).Moves source tokens ending ahead ∧
      significant tokens = .startOfFile :: ahead := by
  obtain ⟨unread, along⟩ := along_start yields
  refine ⟨_, ⟨⟨unread, along, rfl⟩, List.mem_cons_self ..⟩, ?_⟩
  rw [along.split]
  rfl

theorem current_mem_tokens (lexer : Lexer) : lexer.current ∈ lexer.tokens :=
  List.mem_append_right _ (List.mem_cons_self ..)

namespace Moves

theorem of_along (moves : lexer.Moves source tokens ending ahead) {lexer' : Lexer}
    {unread after : List Token} (along' : lexer'.Along source tokens ending unread)
    (same : lexer' = { lexer with after, frontier := lexer'.frontier }) :
    lexer'.Moves source tokens ending ahead := by
  obtain ⟨⟨unread', along, rfl⟩, last⟩ := moves
  refine ⟨⟨unread, along', ?_⟩, ?_⟩
  · rw [along.after_append along' same, same]
  · rw [same]
    exact last

theorem advance (moves : lexer.Moves source tokens ending ahead)
    (yields : source.Yields tokens ending) :
    Advances source tokens ending lexer ahead lexer.advance := by
  obtain ⟨unread, along, rfl⟩ := moves.along
  have foresees := along.foresees yields
  unfold Lexer.advance
  generalize lexer.lookahead = result at foresees
  cases foresees with
  | atEnd isEnd nothing ended =>
      have missing : lexer.after = [] := (List.append_eq_nil_iff.mp nothing).1
      have step : lexer.step = { lexer with last := lexer.current } := by
        rw [Lexer.step, missing]
        rfl
      rw [nothing]
      change Advances source tokens ending lexer [] (.ok lexer.current, lexer.step)
      rw [step]
      obtain ⟨source_eq, isSignificant, split, left⟩ := along
      refine .atEnd isEnd rfl ⟨⟨unread, ⟨source_eq, isSignificant, split, ?_⟩, ?_⟩,
        List.mem_cons_self ..⟩
      · cases left with
        | nothing isEnd => exact .nothing isEnd
        | ahead frontierIn left => exact .ahead frontierIn left
      · rw [nothing]
        rfl
  | @found token lexer' comments after _ along' same unseen seen =>
      obtain ⟨unread', along'⟩ := along'
      have found : lexer'.after = comments ++ token :: after := by rw [same]
      have split : significant (lexer.after ++ unread) =
          token :: significant (after ++ unread') := by
        rw [along.after_append along' same, List.append_assoc, significant_append,
          significant_eq_nil unseen]
        simp [significant, seen]
      have along'' := along'.step yields found unseen seen
      change Advances source tokens ending lexer _ (.ok token, lexer'.step)
      rw [split]
      rw [step_of_found found unseen seen] at along'' ⊢
      exact .moved rfl ⟨⟨unread', along'', rfl⟩, by simp⟩
  | @fault error lexer' comments _ along' same unseen ended =>
      have moves' := moves.of_along along' same
      have missing : significant (lexer.after ++ unread) = [] := by
        rw [along.after_append along' same, List.append_nil, significant_eq_nil unseen]
      rw [missing] at moves' ⊢
      exact .fault (by rw [same]) moves'

theorem lookahead (moves : lexer.Moves source tokens ending ahead)
    (yields : source.Yields tokens ending) :
    lexer.lookahead.2.Moves source tokens ending ahead ∧
      lexer.lookahead.2.current = lexer.current ∧
      lexer.lookahead.2.last = lexer.last := by
  obtain ⟨unread, along, _⟩ := moves.along
  have foresees := along.foresees yields
  generalize lexer.lookahead = result at foresees
  cases foresees with
  | atEnd => exact ⟨moves, rfl, rfl⟩
  | found _ along' same =>
      obtain ⟨unread', along'⟩ := along'
      exact ⟨moves.of_along along' same, by rw [same], by rw [same]⟩
  | fault _ along' same => exact ⟨moves.of_along along' same, by rw [same], by rw [same]⟩

theorem lookahead_lookahead (moves : lexer.Moves source tokens ending ahead)
    (yields : source.Yields tokens ending) :
    lexer.lookahead.2.lookahead = lexer.lookahead := by
  obtain ⟨unread, along, _⟩ := moves.along
  have foresees := along.foresees yields
  generalize answer : lexer.lookahead = result at foresees
  cases foresees with
  | atEnd => exact answer
  | @found token lexer' comments after unended _ same unseen seen =>
      have found :
          (comments ++ token :: after).find? Token.isSignificant = some token := by
        rw [List.find?_append, List.find?_eq_none.mpr (by simpa using unseen),
          Option.none_or, List.find?_cons_of_pos seen]
      change lexer'.lookahead = (.ok token, lexer')
      rw [same]
      simp only [Lexer.lookahead, unended, found]
      rfl
  | @fault error lexer' comments unended along' same unseen ended =>
      obtain ⟨_, next⟩ : ∃ frontierIn : lexer'.frontier.In lexer'.source,
          lexer'.frontier.next = .error error := by
        subst ended
        cases along'.left with
        | ahead frontierIn left =>
            cases left with
            | fault next => exact ⟨frontierIn, next⟩
      have missing : lexer'.after.find? Token.isSignificant = Option.none := by
        rw [same, List.find?_eq_none]
        simpa using unseen
      have unended' : lexer'.current.isEndOfFile = false := by rw [same]; exact unended
      change lexer'.lookahead = (.error error, lexer')
      rw [Lexer.lookahead, missing, Lexer.readOn, Cursor.scanSignificant,
        Cursor.scan_of_next_error next]
      simp [unended', Stretch.tokens]

theorem significant_eq (moves : lexer.Moves source tokens ending ahead) :
    significant tokens = significant lexer.before.reverse ++ lexer.current :: ahead := by
  obtain ⟨unread, along, rfl⟩ := moves.along
  rw [along.split, Lexer.tokens, List.append_assoc, significant_append, List.cons_append]
  simp [significant, along.isSignificant]

theorem isSignificant (moves : lexer.Moves source tokens ending ahead) :
    lexer.current.isSignificant = true := by
  obtain ⟨_, along, _⟩ := moves.along
  exact along.isSignificant

theorem current_mem (moves : lexer.Moves source tokens ending ahead) :
    lexer.current ∈ tokens := by
  obtain ⟨unread, along, _⟩ := moves.along
  rw [along.split]
  exact List.mem_append_left _ lexer.current_mem_tokens

theorem last_mem (moves : lexer.Moves source tokens ending ahead) :
    lexer.last ∈ lexer.tokens := by
  have passed := moves.last
  rw [Lexer.tokens, List.append_cons]
  refine List.mem_append_left _ ?_
  rwa [← List.reverse_cons, List.mem_reverse]

theorem last_advance (moves : lexer.Moves source tokens ending ahead)
    (yields : source.Yields tokens ending)
    {token : Token} {lexer' : Lexer} (answer : lexer.advance = (.ok token, lexer')) :
    lexer'.last = lexer.current := by
  obtain ⟨_, current, _⟩ := moves.lookahead yields
  unfold Lexer.advance at answer
  split at answer
  next equal =>
    cases answer
    rw [equal] at current
    rw [← current]
    unfold Lexer.step
    split <;> rfl
  next => cases answer

theorem ordinal (moves : lexer.Moves source tokens ending ahead)
    (yields : source.Yields tokens ending) :
    (significant tokens)[lexer.current.ordinal]? = some lexer.current ∧
      ∀ next ∈ ahead.head?, next.ordinal = lexer.current.ordinal + 1 ∧
        (significant tokens)[lexer.current.ordinal + 1]? = some next := by
  have all := moves.significant_eq
  let count := (significant lexer.before.reverse).length
  have current : (significant tokens)[count]? = some lexer.current := by simp [all, count]
  have ordinal := yields.numbered.ordinal current
  rw [Nat.zero_add] at ordinal
  refine ⟨ordinal ▸ current, fun next first => ?_⟩
  obtain ⟨rest, rfl⟩ := List.head?_eq_some_iff.mp first
  have behind : (significant tokens)[count + 1]? = some next := by simp [all, count]
  have ordinal' := yields.numbered.ordinal behind
  rw [Nat.zero_add, ← ordinal] at ordinal'
  exact ⟨ordinal', ordinal ▸ behind⟩

theorem getElem?_ordinal (moves : lexer.Moves source tokens ending ahead)
    (yields : source.Yields tokens ending) {token : Token} (read : token ∈ lexer.tokens)
    (seen : token.isSignificant = true) :
    lexer.significantTokens[token.ordinal]? = some token := by
  obtain ⟨unread, along, _⟩ := moves.along
  obtain ⟨index, found⟩ := List.mem_iff_getElem?.mp (List.mem_filter.mpr ⟨read, seen⟩)
  have found' : (significant tokens)[index]? = some token := by
    rw [along.split, significant_append]
    exact List.getElem?_append_left (List.getElem?_eq_some_iff.mp found).1 ▸ found
  rw [yields.numbered.ordinal found', Nat.zero_add]
  exact found

end Moves

/-! ## Calls that fail -/

theorem call_eq_error {call : Call} {error : LexicalError} {lexer' : Lexer} :
    lexer.call call = (.error error, lexer') ↔
      lexer.lookahead = (.error error, lexer') := by
  cases call with
  | lookahead => rfl
  | advance =>
      unfold Lexer.call Lexer.advance
      generalize lexer.lookahead = result
      obtain ⟨answer, lexer''⟩ := result
      cases answer <;> simp

/-- A call has come to a fault. It has read the comments in front of that, and
nothing else has come of it. -/
structure Fails (source : Source) (lexer : Lexer) (error : LexicalError)
    (lexer' : Lexer) : Prop where
  current_eq : lexer'.current = lexer.current
  last_eq : lexer'.last = lexer.last
  reads : ∃ comments, lexer'.tokens = lexer.tokens ++ comments ∧
    lexer'.tokens <+: source.scanned ∧
    ∀ comment ∈ comments, comment.kind = .comment
  again : ∀ call, lexer'.call call = (.error error, lexer')
  /-- No token that the grammar sees lies between the current one and the fault. -/
  atFault : tokenize source = .error error ∧
    (significant source.scanned).getLast? = some lexer.current

theorem kind_eq_endOfFile {token : Token} :
    token.kind = .endOfFile ↔ token.isEndOfFile = true := by
  rw [Token.kind, Token.isEndOfFile]
  cases token.lexeme <;> simp [Lexeme.kind, Lexeme.isEndOfFile]

theorem kind_eq_comment {token : Token} :
    token.kind = .comment ↔ token.isSignificant = false := by
  rw [Token.kind, Token.isSignificant]
  cases token.lexeme <;> simp [Lexeme.kind, Lexeme.isSignificant, Lexeme.isComment]

theorem Moves.fails (moves : lexer.Moves source tokens ending ahead)
    (yields : source.Yields tokens ending)
    {call : Call} {error : LexicalError} {lexer' : Lexer}
    (failed : lexer.call call = (.error error, lexer')) :
    Fails source lexer error lexer' := by
  rw [call_eq_error] at failed
  obtain ⟨unread, along, rfl⟩ := moves.along
  have foresees := along.foresees yields
  have again := moves.lookahead_lookahead yields
  rw [failed] at foresees again
  cases foresees with
  | @fault _ _ comments _ along' same unseen ended =>
      subst ended
      refine ⟨by
        rw [same], by
          rw [same], ⟨comments, ?_, ?_, ?_⟩, fun call => call_eq_error.mpr again,
        yields.tokenize_eq, ?_⟩
      · rw [same]
        simp [Lexer.tokens]
      · exact ⟨[], by rw [yields.scanned_eq, along'.split]⟩
      · intro comment member
        exact kind_eq_comment.mpr (unseen comment (List.mem_append_right _ member))
      · have nothing : significant (lexer.after ++ unread) = [] := by
          rw [along.after_append along' same, List.append_nil, significant_eq_nil unseen]
        rw [yields.scanned_eq, moves.significant_eq, nothing, List.getLast?_concat]

/-! ## The tokens of a lexer -/

theorem Along.getElem?_eq {unread : List Token}
    (along : lexer.Along source tokens ending unread)
    (yields : source.Yields tokens ending) {index : Nat} {token : Token}
    (found : lexer.tokens[index]? = some token) : token.index = index := by
  have lt := (List.getElem?_eq_some_iff.mp found).1
  refine yields.index_eq ?_
  rw [along.split, List.getElem?_append_left lt, found]

theorem tokens_getElem? (lexer : Lexer) :
    lexer.tokens[lexer.before.length]? = some lexer.current := by
  rw [Lexer.tokens, List.getElem?_append_right (by simp)]
  simp

theorem exists_getElem?_of_mem {token : Token}
    (member : token ∈ lexer.current :: lexer.before) :
    ∃ index ≤ lexer.before.length, lexer.tokens[index]? = some token := by
  rw [← List.mem_reverse, List.reverse_cons] at member
  obtain ⟨index, lt, found⟩ := List.getElem_of_mem member
  refine ⟨index, ?_, ?_⟩
  · simpa [Nat.lt_succ_iff] using lt
  · rw [Lexer.tokens, List.append_cons, List.getElem?_append_left lt,
      List.getElem?_eq_getElem lt, found]

theorem Along.length_eq {unread : List Token}
    (along : lexer.Along source tokens ending unread)
    (yields : source.Yields tokens ending) {index : Nat} {token : Token}
    (found : lexer.tokens[index]? = some token) (isEnd : token.isEndOfFile = true) :
    index + 1 = lexer.tokens.length := by
  obtain ⟨lt, equal⟩ := List.getElem?_eq_some_iff.mp found
  have split : lexer.tokens =
      lexer.tokens.take index ++ token :: lexer.tokens.drop (index + 1) := by
    rw [← equal, List.getElem_cons_drop, List.take_append_drop]
  rw [along.split, split, List.append_assoc, List.cons_append] at yields
  have nothing := (List.append_eq_nil_iff.mp (yields.nothing_after isEnd).1).1
  have le := List.drop_eq_nil_iff.mp nothing
  omega

theorem Along.head?_eq {unread : List Token}
    (along : lexer.Along source tokens ending unread)
    (yields : source.Yields tokens ending) : lexer.tokens.head? = some .startOfFile := by
  have nonempty : lexer.tokens ≠ [] := by simp [Lexer.tokens]
  obtain ⟨first, others, read⟩ := List.exists_cons_of_ne_nil nonempty
  obtain ⟨rest, begins, _⟩ := yields
  have split := along.split
  rw [begins, read] at split
  cases split
  rw [read, List.head?_cons]

theorem Along.intoTokens_eq {unread : List Token}
    (along : lexer.Along source tokens ending unread)
    (yields : source.Yields tokens ending) : lexer.intoTokens = tokenize source := by
  obtain ⟨rfl, _, split, left⟩ := along
  rw [yields.tokenize_eq, Lexer.intoTokens]
  split
  next isEnd =>
    obtain ⟨token, member, isEnd⟩ := List.any_eq_true.mp isEnd
    obtain ⟨first, second, equal⟩ := List.append_of_mem member
    rw [split, equal, List.append_assoc, List.cons_append] at yields
    obtain ⟨nothing, rfl⟩ := yields.nothing_after isEnd
    rw [split, (List.append_eq_nil_iff.mp nothing).2, List.append_nil]
    rfl
  next notEnd =>
    cases left with
    | nothing isEnd =>
        obtain ⟨token, member, isEnd⟩ := isEnd
        exact absurd
          (List.any_eq_true.mpr ⟨token, List.mem_append_right _ member, isEnd⟩) notEnd
    | ahead frontierIn left =>
        obtain ⟨read, outcome⟩ := left.scanAll frontierIn
        change (lexer.frontier.scanAll lexer.source).outcome.map _ = _
        rw [read, ← split, outcome]

theorem advance_fst (lexer : Lexer) : lexer.advance.1 = lexer.lookahead.1 := by
  unfold Lexer.advance
  generalize lexer.lookahead = result
  obtain ⟨answer, lexer'⟩ := result
  cases answer <;> rfl

/-- A lexer holds what a scan of the source reads, as far as it has come. -/
structure Sound (source : Source) (lexer : Lexer) : Prop where
  isPrefix : lexer.tokens <+: source.scanned
  begins : lexer.tokens.head? = some .startOfFile
  index_eq : ∀ index (token : Token), lexer.tokens[index]? = some token →
    token.index = index
  current : lexer.tokens[lexer.current.index]? = some lexer.current
  last : lexer.tokens[lexer.last.index]? = some lexer.last
  last_le : lexer.last.index ≤ lexer.current.index
  current_lt : lexer.current.index < lexer.tokens.length
  notComment : lexer.current.kind ≠ .comment
  ends : ∀ index (token : Token), lexer.tokens[index]? = some token →
    token.kind = .endOfFile →
    index + 1 = lexer.tokens.length
  /-- Looking ahead tells what moving on comes to, and does not move. -/
  foretells : lexer.lookahead.1 = lexer.advance.1 ∧
    lexer.lookahead.2.advance = lexer.advance ∧
    lexer.lookahead.2.lookahead = lexer.lookahead
  stays : lexer.lookahead.2.current = lexer.current ∧ lexer.lookahead.2.last = lexer.last
  fails : ∀ call error lexer', lexer.call call = (.error error, lexer') →
    Fails source lexer error lexer'
  intoTokens_eq : lexer.intoTokens = tokenize source

theorem Moves.sound (moves : lexer.Moves source tokens ending ahead)
    (yields : source.Yields tokens ending) :
    lexer.Sound source := by
  obtain ⟨unread, along, rfl⟩ := moves.along
  have index_eq : ∀ index (token : Token), lexer.tokens[index]? = some token →
      token.index = index :=
    fun index token found => along.getElem?_eq yields found
  have place : lexer.current.index = lexer.before.length :=
    index_eq _ _ lexer.tokens_getElem?
  obtain ⟨index, le, found⟩ := exists_getElem?_of_mem moves.last
  have last : lexer.last.index = index := index_eq _ _ found
  have current : lexer.tokens[lexer.current.index]? = some lexer.current := by
    rw [place, tokens_getElem?]
  have again := moves.lookahead_lookahead yields
  exact {
    isPrefix := ⟨unread, by rw [yields.scanned_eq, along.split]⟩
    begins := along.head?_eq yields
    index_eq
    current
    last := by rw [last, found]
    last_le := by rw [last, place]; exact le
    current_lt := (List.getElem?_eq_some_iff.mp current).1
    notComment := by rw [Ne, kind_eq_comment, along.isSignificant]; exact nofun
    ends := fun index token found isEnd =>
      along.length_eq yields found (kind_eq_endOfFile.mp isEnd)
    foretells :=
      ⟨lexer.advance_fst.symm, by rw [Lexer.advance, again, Lexer.advance], again⟩
    stays := (moves.lookahead yields).2
    fails := fun call error lexer' failed => moves.fails yields failed
    intoTokens_eq := along.intoTokens_eq yields }

/-! ## Any number of calls -/

theorem Moves.call (moves : lexer.Moves source tokens ending ahead)
    (yields : source.Yields tokens ending)
    (call : Call) : ∃ ahead', (lexer.call call).2.Moves source tokens ending ahead' := by
  cases call with
  | lookahead => exact ⟨ahead, (moves.lookahead yields).1⟩
  | advance =>
      have advances := moves.advance yields
      change ∃ ahead', lexer.advance.2.Moves source tokens ending ahead'
      generalize lexer.advance = result at advances
      cases advances with
      | atEnd _ _ moves' => exact ⟨_, moves'⟩
      | moved _ moves' => exact ⟨_, moves'⟩
      | fault _ moves' => exact ⟨_, moves'⟩

theorem Moves.run (moves : lexer.Moves source tokens ending ahead)
    (yields : source.Yields tokens ending)
    (calls : List Call) :
    ∃ ahead', (lexer.run calls).Moves source tokens ending ahead' := by
  induction calls generalizing lexer ahead with
  | nil => exact ⟨ahead, moves⟩
  | cons call calls induction =>
      obtain ⟨ahead', moves'⟩ := moves.call yields call
      exact induction moves'

theorem Moves.visited (moves : lexer.Moves source tokens ending ahead)
    (yields : source.Yields tokens ending)
    (calls : List Call) {count : Nat} {token : Token}
    (found : (lexer.visited calls)[count]? = some token) :
    ahead[count]? = some token ∨
      token.isEndOfFile = true ∧ (lexer.current :: ahead).getLast? = some token ∧
      ahead.length ≤ count := by
  induction calls generalizing lexer ahead count with
  | nil => cases found
  | cons call calls induction =>
      cases call with
      | lookahead =>
          obtain ⟨moves', current, _⟩ := moves.lookahead yields
          rw [← current]
          exact induction moves' found
      | advance =>
          have advances := moves.advance yields
          unfold Lexer.visited Lexer.call at found
          generalize lexer.advance = result at advances found
          cases advances with
          | atEnd isEnd same moves' =>
              cases count with
              | zero =>
                  cases found
                  exact .inr ⟨isEnd, rfl, Nat.le_refl _⟩
              | succ count =>
                  rcases induction moves' found with found | ⟨isEnd, last, _⟩
                  · cases found
                  · exact .inr ⟨isEnd, same ▸ last, Nat.zero_le _⟩
          | moved current moves' =>
              cases count with
              | zero =>
                  cases found
                  exact .inl rfl
              | succ count =>
                  rcases induction moves' found with found | ⟨isEnd, last, le⟩
                  · exact .inl found
                  · exact .inr ⟨isEnd, current ▸ last, Nat.succ_le_succ le⟩
          | fault same moves' => exact same ▸ induction moves' found

/-- However a lexer is asked, it holds what one scan of the source reads, and moves on
through the tokens of that scan that the grammar sees, in order, to stay at the end. -/
theorem run_sound (source : Source) (calls : List Call) :
    ((start source).run calls).Sound source ∧
      ∀ count token, ((start source).visited calls)[count]? = some token →
        (significant source.scanned)[count + 1]? = some token ∨
          token.kind = .endOfFile ∧ (significant source.scanned).getLast? = some token ∧
            (significant source.scanned).length ≤ count + 1 := by
  obtain ⟨tokens, ending, yields⟩ := source.exists_yields
  obtain ⟨ahead, moves, seen⟩ := moves_start yields
  obtain ⟨ahead', moves'⟩ := moves.run yields calls
  refine ⟨moves'.sound yields, fun count token found => ?_⟩
  rw [yields.scanned_eq, seen]
  rcases moves.visited yields calls found with found | ⟨isEnd, last, le⟩
  · exact .inl found
  · exact .inr ⟨kind_eq_endOfFile.mpr isEnd, last, Nat.succ_le_succ le⟩

end Lexer

end GraphQL
