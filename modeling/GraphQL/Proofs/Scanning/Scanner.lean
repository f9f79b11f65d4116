import GraphQL.Proofs.Scanning.Token

/-! A scanner that is asked for one token after another.

It keeps the tokens that it has scanned and the mark where the last of them ends. A token
is scanned from there, and if it cannot be, the mark is put back. So the scanner comes to
the same as a lexer that knows nothing of offsets, and no slice that it takes is out of
bounds. -/

namespace GraphQL

def Lexer.answers (lexer : Lexer) : List Lexer.Call → List (Except LexicalError Token)
  | [] => []
  | call :: calls => (lexer.call call).1 :: (lexer.call call).2.answers calls

namespace Scanning

open Text

/-- The tokens scanned so far, of which one is the current one and one was that before,
and the mark where they end -/
structure Scanner where
  text : List Char
  entries : List Entry
  current : Nat
  last : Nat
  mark : Mark

namespace Scanner

def start (text : List Char) : Scanner :=
  ⟨text, [.ofToken .startOfFile], 0, 0, .origin⟩

def entryAt (index : Nat) : Action Scanner Entry := do
  match (← get).entries[index]? with
  | some entry => return entry
  | none => throw .outOfBounds

/-- Scans the token with the next number, from the end of the one before. If there is none
because of a fault, the mark is put back where the tokens end. -/
def scanNext (index : Nat) : Action Scanner Unit := do
  let before ← entryAt (index - 1)
  let scanner ← get
  let (outcome, mark) := runAt scanner.mark (scanToken scanner.text before.stop index)
  set { scanner with mark }
  match outcome with
  | .ok entry => modify fun state => { state with entries := state.entries ++ [entry] }
  | .error halt =>
      modify fun state => { state with mark := scanner.mark }
      throw halt

/-- Looks for the first token behind a number that is no comment, and scans
what is missing. -/
def search : (rounds index : Nat) → Action Scanner Nat
  | 0, _ => throw .endless
  | rounds + 1, index => do
      if index + 1 = (← get).entries.length then scanNext (index + 1)
      let entry ← entryAt (index + 1)
      if entry.lexeme.isComment then search rounds (index + 1) else return index + 1

/-- The number of the next token that is no comment. Nothing follows the end of
the text but the end itself. -/
def lookaheadIndex : Action Scanner Nat := do
  let scanner ← get
  let entry ← entryAt scanner.current
  if entry.lexeme.isEndOfFile then return scanner.current
  else search (scanner.entries.length + byteSize scanner.text + 1) scanner.current

def lookahead : Action Scanner Entry := do
  let next ← lookaheadIndex
  entryAt next

def advance : Action Scanner Entry := do
  let next ← lookaheadIndex
  modify fun scanner => { scanner with last := scanner.current, current := next }
  entryAt next

/-- Moves on until the current token is the end of the text, and gives all
the tokens then. -/
def intoEntries : (rounds : Nat) → Action Scanner (List Entry)
  | 0 => throw .endless
  | rounds + 1 => do
      let scanner ← get
      let entry ← entryAt scanner.current
      if entry.lexeme.isEndOfFile then return scanner.entries
      else
        let _ ← advance
        intoEntries rounds

def call : Lexer.Call → Action Scanner Entry
  | .advance => advance
  | .lookahead => lookahead

def answers (scanner : Scanner) : List Lexer.Call → List (Checked Entry)
  | [] => []
  | next :: calls =>
      let (answer, scanner) := runAt scanner (call next)
      answer :: scanner.answers calls

def run (scanner : Scanner) : List Lexer.Call → Scanner
  | [] => scanner
  | next :: calls => (runAt scanner (call next)).2.run calls

end Scanner

/-! ## Between tokens -/

/-- The token ends behind where it begins, unless it covers no text. -/
structure Entry.Advances (entry : Entry) : Prop where
  start_le : entry.start ≤ entry.stop
  start_lt : entry.lexeme.isSentinel = false → entry.start < entry.stop

variable {source : Source} {scanner : Scanner} {cursor : Cursor} {passed : List Char}

/-- The scanner has come to where the cursor stands, which is the end of the last token
that it has scanned. The tokens are one behind the other. -/
structure Scanner.At (source : Source) (scanner : Scanner) (cursor : Cursor)
    (passed : List Char) : Prop where
  text : scanner.text = source.chars
  located : cursor.Located source passed
  tracks : scanner.mark.Tracks passed
  index : cursor.index = scanner.entries.length
  last : ∃ before entry, scanner.entries = before ++ [entry] ∧
    entry.stop = byteSize passed
  stop_le : ∀ entry ∈ scanner.entries, entry.stop ≤ byteSize passed
  advances : ∀ entry ∈ scanner.entries, entry.Advances
  ordered : scanner.entries.Pairwise fun entry next => entry.stop ≤ next.start

theorem Scanner.at_start (source : Source) :
    (Scanner.start source.chars).At source (.start source) [] where
  text := rfl
  located := Cursor.located_start source
  tracks := Mark.tracks_origin
  index := rfl
  last := ⟨[], _, rfl, rfl⟩
  stop_le := List.forall_mem_singleton.mpr (Nat.le_refl 0)
  advances := List.forall_mem_singleton.mpr ⟨Nat.le_refl 0, nofun⟩
  ordered := List.pairwise_singleton ..

namespace Scanner

theorem runAt_entryAt {index : Nat} {entry : Entry}
    (found : scanner.entries[index]? = some entry) :
    runAt scanner (entryAt index) = (.ok entry, scanner) := by
  rw [entryAt, runAt_get_bind, found]
  rfl

theorem At.found (isAt : scanner.At source cursor passed) :
    ∃ entry, scanner.entries[scanner.entries.length - 1]? = some entry ∧
      entry.stop = byteSize passed := by
  obtain ⟨before, entry, split, stop⟩ := isAt.last
  exact ⟨entry, by simp [split], stop⟩

theorem runAt_scanNext {index : Nat} {before : Entry}
    (found : scanner.entries[index - 1]? = some before) :
    runAt scanner (scanNext index) =
      match runAt scanner.mark (scanToken scanner.text before.stop index) with
      | (.ok entry, mark) =>
          (.ok (), { scanner with entries := scanner.entries ++ [entry], mark })
      | (.error halt, _) => (.error halt, scanner) := by
  rw [scanNext, runAt_bind, runAt_entryAt found]
  simp only [runAt_get_bind]
  cases runAt scanner.mark (scanToken scanner.text before.stop index) with
  | mk outcome mark => cases outcome <;> rfl

def push (scanner : Scanner) (entry : Entry) (mark : Mark) : Scanner :=
  { scanner with entries := scanner.entries ++ [entry], mark }

theorem At.scanNext_of_error (isAt : scanner.At source cursor passed)
    {error : LexicalError} (failed : cursor.next = .error error) :
    runAt scanner (scanNext scanner.entries.length) =
      (.error (.fault error), scanner) := by
  obtain ⟨entry, found, stop⟩ := isAt.found
  have scanned := (scanToken_scans isAt.located isAt.tracks).fault error failed
  rw [isAt.index, ← isAt.text, ← stop] at scanned
  rw [runAt_scanNext found]
  generalize runAt scanner.mark (scanToken _ _ _) = outcome at scanned
  obtain ⟨outcome, mark⟩ := outcome
  cases scanned
  rfl

theorem At.advances_next (isAt : scanner.At source cursor passed) {token : Token}
    {after : Cursor} (next : cursor.next = .ok (token, after)) :
    byteSize passed ≤ token.start.offset ∧ (Entry.ofToken token).Advances := by
  obtain ⟨reading, read, rfl, rfl⟩ := Cursor.next_eq_ok.mp next
  have offset : cursor.position.offset = byteSize passed := by
    simp [isAt.located.position, Position.after, Position.origin]
  refine ⟨?_, ?_, fun notSentinel => ?_⟩
  · simp [Cursor.tokenOf, Cursor.tokenStart, Position.after, offset]
  · simp [Entry.ofToken, Cursor.tokenOf, Position.after]
  · have notEnd : (cursor.tokenOf reading).isEndOfFile = false := by
      change reading.lexeme.isSentinel = false at notSentinel
      change reading.lexeme.isEndOfFile = false
      cases lexeme : reading.lexeme <;> simp_all [Lexeme.isSentinel, Lexeme.isEndOfFile]
    obtain ⟨other, stands, same, _⟩ := Cursor.stands_of_next next notEnd
    have stop := congrArg Token.stop same
    obtain ⟨char, more, text⟩ := List.exists_cons_of_ne_nil stands.nonempty
    have positive := char.utf8Size_pos
    simp only [Cursor.tokenOf, Position.after, text, byteSize_cons] at stop
    simp only [Entry.ofToken, Cursor.tokenOf, Position.after]
    omega

theorem At.scanNext_of_ok (isAt : scanner.At source cursor passed) {token : Token}
    {after : Cursor} (next : cursor.next = .ok (token, after)) : ∃ mark passed',
    runAt scanner (scanNext scanner.entries.length) =
      (.ok (), scanner.push (.ofToken token) mark) ∧
      (scanner.push (.ofToken token) mark).At source after passed' := by
  obtain ⟨entry, found, stop⟩ := isAt.found
  obtain ⟨scanned, passed', stop', located, tracks⟩ :=
    (scanToken_scans isAt.located isAt.tracks).token token after next
  obtain ⟨start, advances⟩ := isAt.advances_next next
  rw [isAt.index, ← isAt.text, ← stop] at scanned tracks
  generalize scans : runAt scanner.mark (scanToken _ _ _) = outcome at scanned tracks
  obtain ⟨outcome, mark⟩ := outcome
  cases scanned
  have further : byteSize passed ≤ byteSize passed' := by
    rw [← stop']
    exact Nat.le_trans start advances.start_le
  refine ⟨mark, passed', ?_, isAt.text, located, tracks, ?_,
    ⟨_, _, rfl, stop'⟩, ?_, ?_, ?_⟩
  · rw [runAt_scanNext found, scans]
    rfl
  · obtain ⟨reading, _, _, rfl⟩ := Cursor.next_eq_ok.mp next
    simp [push, Cursor.behind, isAt.index]
  · refine List.forall_mem_append.mpr
      ⟨fun entry member => ?_, List.forall_mem_singleton.mpr (Nat.le_of_eq stop')⟩
    exact Nat.le_trans (isAt.stop_le entry member) further
  · exact List.forall_mem_append.mpr
      ⟨isAt.advances, List.forall_mem_singleton.mpr advances⟩
  · refine List.pairwise_append.mpr
      ⟨isAt.ordered, List.pairwise_singleton .., fun entry member => ?_⟩
    exact List.forall_mem_singleton.mpr (Nat.le_trans (isAt.stop_le entry member) start)

/-! ## Looking for a token -/

theorem runAt_search {rounds index : Nat} {entry : Entry}
    (found : scanner.entries[index + 1]? = some entry) :
    runAt scanner (search (rounds + 1) index) =
      if entry.lexeme.isComment then runAt scanner (search rounds (index + 1))
        else (.ok (index + 1), scanner) := by
  have inside : index + 1 ≠ scanner.entries.length :=
    Nat.ne_of_lt (List.getElem?_eq_some_iff.mp found).1
  rw [search, runAt_get_bind, if_neg inside]
  change runAt scanner (entryAt (index + 1) >>= _) = _
  rw [runAt_bind, runAt_entryAt found]
  simp only
  split <;> rfl

theorem runAt_search_comments {seen comments more : List Entry} {index : Nat}
    (split : scanner.entries = seen ++ (comments ++ more))
    (length : seen.length = index + 1)
    (passed : ∀ comment ∈ comments, comment.lexeme.isComment = true) (rounds : Nat) :
    runAt scanner (search (comments.length + rounds) index) =
      runAt scanner (search rounds (index + comments.length)) := by
  induction comments generalizing seen index with
  | nil => rw [List.length_nil, Nat.zero_add, Nat.add_zero]
  | cons comment comments induction =>
      obtain ⟨isComment, passed⟩ := List.forall_mem_cons.mp passed
      have found : scanner.entries[index + 1]? = some comment := by
        rw [split, ← length]
        simp
      have split' : scanner.entries = (seen ++ [comment]) ++ (comments ++ more) := by
        simp [split]
      have length' : (seen ++ [comment]).length = index + 1 + 1 := by simp [length]
      have rounds' :
          (comment :: comments).length + rounds = comments.length + rounds + 1 := by
        rw [List.length_cons]
        omega
      rw [rounds', runAt_search found, if_pos isComment, induction split' length' passed,
        List.length_cons, Nat.add_assoc, Nat.add_comm 1]

theorem runAt_search_of_error {rounds index : Nat} {halt : Halt} {scanner' : Scanner}
    (atEnd : index + 1 = scanner.entries.length)
    (failed : runAt scanner (scanNext scanner.entries.length) = (.error halt, scanner')) :
    runAt scanner (search (rounds + 1) index) = (.error halt, scanner') := by
  rw [search, runAt_get_bind, if_pos atEnd, runAt_bind, atEnd, failed]

theorem runAt_search_of_ok {rounds index : Nat} {scanner' : Scanner}
    (atEnd : index + 1 = scanner.entries.length)
    (scanned : runAt scanner (scanNext scanner.entries.length) = (.ok (), scanner'))
    (inside : index + 1 < scanner'.entries.length) :
    runAt scanner (search (rounds + 1) index) =
      runAt scanner' (search (rounds + 1) index) := by
  rw [← atEnd] at scanned
  simp only [search, runAt_get_bind, if_pos atEnd, if_neg (Nat.ne_of_lt inside)]
  rw [runAt_bind, scanned]

/-- Beyond the tokens scanned already, the search comes to what a scan for a
token comes to. -/
structure Searched (source : Source) (scanner : Scanner) (stretch : Stretch)
    (outcome : Checked Nat × Scanner) : Prop where
  result : outcome.1 = match stretch.outcome with
    | .ok _ => .ok (scanner.entries.length + stretch.passed.length)
    | .error error => .error (.fault error)
  same : outcome.2 = { scanner with
    entries := scanner.entries ++ stretch.tokens.map .ofToken
    mark := outcome.2.mark }
  isAt : ∃ passed, outcome.2.At source stretch.cursor passed

theorem Searched.of_push {stretch : Stretch} {outcome : Checked Nat × Scanner}
    {token : Token} {mark : Mark}
    (searched : Searched source (scanner.push (.ofToken token) mark) stretch outcome) :
    Searched source scanner { stretch with
      passed := token :: stretch.passed } outcome where
  result := by
    rw [searched.result]
    cases stretch.outcome with
    | error error => rfl
    | ok found =>
        simp only [push, List.length_append, List.length_cons, List.length_nil]
        congr 1
        omega
  same := by
    rw [searched.same]
    obtain ⟨_, outcome, _⟩ := stretch
    cases outcome <;> simp [push, Stretch.tokens]
  isAt := searched.isAt

theorem At.searched {limit rounds index : Nat} (isAt : scanner.At source cursor passed)
    (enough : byteSize cursor.rest ≤ limit) (more : limit < rounds)
    (atEnd : index + 1 = scanner.entries.length) :
    Searched source scanner (cursor.scan Lexeme.isSignificant limit)
      (runAt scanner (search rounds index)) := by
  induction rounds generalizing scanner cursor passed limit index with
  | zero => cases more
  | succ rounds induction =>
      cases next : cursor.next with
      | error error =>
          rw [runAt_search_of_error atEnd (isAt.scanNext_of_error next),
            Cursor.scan_of_next_error next]
          exact ⟨rfl, by simp [Stretch.tokens], passed, isAt⟩
      | ok result =>
          obtain ⟨token, after⟩ := result
          obtain ⟨mark, passed', scanned, isAt'⟩ := isAt.scanNext_of_ok next
          have found : (scanner.push (.ofToken token) mark).entries[index + 1]? =
              some (.ofToken token) := by
            simp [push, atEnd]
          have inside := (List.getElem?_eq_some_iff.mp found).1
          rw [runAt_search_of_ok atEnd scanned inside, runAt_search found]
          change Searched source scanner _ (if token.lexeme.isComment then _ else _)
          cases isComment : token.lexeme.isComment with
          | false =>
              have isWanted : token.lexeme.isSignificant = true := by
                rw [Lexeme.isSignificant, isComment]; rfl
              have same : cursor.scan Lexeme.isSignificant limit =
                  ⟨[], .ok token, after⟩ := by
                cases limit <;> simp only [Cursor.scan, next, isWanted, if_true]
              rw [same, if_neg Bool.false_ne_true]
              exact ⟨congrArg Except.ok atEnd, rfl, passed', isAt'⟩
          | true =>
              have unwanted : token.lexeme.isSignificant = false := by
                rw [Lexeme.isSignificant, isComment]; rfl
              have notEnd : token.isEndOfFile = false :=
                Lexer.not_isEndOfFile_of_not_isSignificant unwanted
              have lt := Cursor.byteSize_lt_of_next next notEnd
              cases limit with
              | zero => omega
              | succ limit =>
                  have same : cursor.scan Lexeme.isSignificant (limit + 1) =
                      { after.scan Lexeme.isSignificant limit with
                        passed := token ::
                          (after.scan Lexeme.isSignificant limit).passed } := by
                    simp only [Cursor.scan, next, unwanted]
                    rfl
                  have atEnd' : index + 1 + 1 =
                      (scanner.push (.ofToken token) mark).entries.length := by
                    simp [push, atEnd]
                  rw [same, if_pos rfl]
                  exact (induction isAt' (by omega) (by omega) atEnd').of_push

/-! ## Looking ahead -/

variable {lexer : Lexer}

/-- The scanner has scanned what the lexer has read, and both are at the same token. -/
structure Mirrors (source : Source) (scanner : Scanner) (lexer : Lexer) : Prop where
  source_eq : lexer.source = source
  entries : scanner.entries = lexer.tokens.map .ofToken
  current : scanner.current = lexer.before.length
  last : scanner.entries[scanner.last]? = some (.ofToken lexer.last)
  isAt : ∃ passed, scanner.At source lexer.frontier passed

theorem mirrors_start (source : Source) :
    Mirrors source (start source.chars) (.start source) where
  source_eq := rfl
  entries := rfl
  current := rfl
  last := rfl
  isAt := ⟨[], at_start source⟩

theorem Mirrors.currentEntry (mirrors : Mirrors source scanner lexer) :
    scanner.entries[scanner.current]? = some (.ofToken lexer.current) := by
  rw [mirrors.entries, mirrors.current, List.getElem?_map, lexer.tokens_getElem?,
    Option.map_some]

/-- What looking ahead has come to: the number of the token that the lexer
would step on to -/
structure Foretells (source : Source) (answer : Except LexicalError Token × Lexer)
    (outcome : Checked Nat × Scanner) : Prop where
  mirrors : Mirrors source outcome.2 answer.2
  result : outcome.1 = match answer.1 with
    | .ok _ => .ok answer.2.step.before.length
    | .error error => .error (.fault error)
  moves : ∀ token, answer.1 = .ok token → answer.2.step.current = token

theorem Mirrors.foretells_end (mirrors : Mirrors source scanner lexer)
    (ended : lexer.after = []) :
    Foretells source (.ok lexer.current, lexer) (.ok scanner.current, scanner) := by
  have step : lexer.step = { lexer with last := lexer.current } := by
    rw [Lexer.step, ended]
    rfl
  refine ⟨mirrors, ?_, ?_⟩
  · simp only [step]
    exact congrArg Except.ok mirrors.current
  · rintro token same
    cases same
    rw [step]

theorem Mirrors.split (mirrors : Mirrors source scanner lexer) : ∃ seen,
    scanner.entries = seen ++ lexer.after.map .ofToken ∧
      seen.length = scanner.current + 1 := by
  refine ⟨(lexer.before.reverse ++ [lexer.current]).map .ofToken, ?_,
    by simp [mirrors.current]⟩
  simp [mirrors.entries, Lexer.tokens]

theorem isComment_of_not_isSignificant {token : Token}
    (unseen : token.isSignificant = false) :
    (Entry.ofToken token).lexeme.isComment = true :=
  Bool.not_eq_false' .. ▸ unseen

theorem Mirrors.runAt_search (mirrors : Mirrors source scanner lexer)
    {comments more : List Token}
    (behind : lexer.after = comments ++ more)
    (unseen : ∀ comment ∈ comments, comment.isSignificant = false)
    (rounds : Nat) : runAt scanner (search (comments.length + rounds) scanner.current) =
      runAt scanner (search rounds (scanner.current + comments.length)) := by
  obtain ⟨seen, split, length⟩ := mirrors.split
  rw [behind, List.map_append] at split
  have passed :
      ∀ comment ∈ comments.map Entry.ofToken, comment.lexeme.isComment = true := by
    intro entry member
    obtain ⟨comment, inside, rfl⟩ := List.mem_map.mp member
    exact isComment_of_not_isSignificant (unseen comment inside)
  have searched := runAt_search_comments split length passed rounds
  rwa [List.length_map] at searched

theorem Mirrors.foretells_found (mirrors : Mirrors source scanner lexer)
    {comments more : List Token} {token : Token}
    (found : lexer.after = comments ++ token :: more)
    (unseen : ∀ comment ∈ comments, comment.isSignificant = false)
    (seen : token.isSignificant = true)
    {rounds : Nat} (enough : scanner.entries.length ≤ rounds) :
    Foretells source (.ok token, lexer)
      (runAt scanner (search rounds scanner.current)) := by
  obtain ⟨before, split, length⟩ := mirrors.split
  have step := Lexer.step_of_found found unseen seen
  have size := congrArg List.length split
  rw [found, List.length_append, List.length_map, List.length_append, List.length_cons]
    at size
  obtain ⟨count, rfl⟩ : ∃ count, rounds = comments.length + (count + 1) :=
    ⟨rounds - comments.length - 1, by omega⟩
  have next : scanner.entries[scanner.current + comments.length + 1]? =
      some (.ofToken token) := by
    have index : scanner.current + comments.length + 1 =
        before.length + comments.length := by omega
    rw [split, found, index, List.getElem?_append_right (Nat.le_add_right ..)]
    simp
  have notComment : (Entry.ofToken token).lexeme.isComment = false :=
    Bool.not_eq_true' .. ▸ seen
  rw [mirrors.runAt_search found unseen, Scanner.runAt_search next, notComment,
    if_neg Bool.false_ne_true]
  refine ⟨mirrors, ?_, ?_⟩
  · simp only [step, List.length_append, List.length_reverse, List.length_cons,
      mirrors.current]
    congr 1
    omega
  · rintro token same
    cases same
    rw [step]

theorem Mirrors.readOn_eq (mirrors : Mirrors source scanner lexer) :
    lexer.readOn =
      let stretch :=
        lexer.frontier.scan Lexeme.isSignificant (byteSize lexer.frontier.rest)
      (stretch.outcome, { lexer with
        after := lexer.after ++ stretch.tokens, frontier := stretch.cursor }) := by
  obtain ⟨passed, isAt⟩ := mirrors.isAt
  have cursorIn : lexer.frontier.In lexer.source :=
    ⟨passed, by rw [mirrors.source_eq, isAt.located.whole],
      by simp [isAt.located.position, Position.after, Position.origin]⟩
  rw [← cursorIn.remaining]
  rfl

/-- A lexer that has read a stretch up to a token steps on to that token. -/
theorem step_of_finds {tokens : List Token} {ending : Option LexicalError}
    {stretch : Stretch} (finds : Cursor.Finds Lexeme.isSignificant tokens ending stretch)
    (unseen : ∀ token ∈ lexer.after, token.isSignificant = false) {token : Token}
    (reached : stretch.outcome = .ok token) :
    Lexer.step { lexer with
      after := lexer.after ++ stretch.tokens, frontier := stretch.cursor } = { lexer with
      before := (lexer.after ++ stretch.passed).reverse ++ lexer.current :: lexer.before
      current := token
      last := lexer.current
      after := []
      frontier := stretch.cursor } := by
  cases finds with
  | fault failed =>
      rw [reached] at failed
      cases failed
  | found reached' _ passed seen =>
      cases reached.symm.trans reached'
      have found : lexer.after ++ stretch.tokens =
          lexer.after ++ stretch.passed ++ token :: [] := by
        simp [Stretch.tokens, reached]
      exact Lexer.step_of_found found (List.forall_mem_append.mpr ⟨unseen, passed⟩) seen

theorem Mirrors.foretells_readOn (mirrors : Mirrors source scanner lexer)
    (unseen : ∀ token ∈ lexer.after, token.isSignificant = false)
    {rounds : Nat} (enough : scanner.entries.length + byteSize source.chars < rounds) :
    Foretells source lexer.readOn (runAt scanner (search rounds scanner.current)) := by
  obtain ⟨before, split, length⟩ := mirrors.split
  obtain ⟨passed, isAt⟩ := mirrors.isAt
  have size := congrArg List.length split
  rw [List.length_append, List.length_map] at size
  have whole := congrArg byteSize isAt.located.whole
  rw [byteSize_append] at whole
  obtain ⟨count, rfl⟩ : ∃ count, rounds = lexer.after.length + count :=
    ⟨rounds - lexer.after.length, by omega⟩
  rw [mirrors.runAt_search (List.append_nil _).symm unseen, mirrors.readOn_eq]
  have searched : Searched source scanner
      (lexer.frontier.scan Lexeme.isSignificant (byteSize lexer.frontier.rest))
      (runAt scanner (search count (scanner.current + lexer.after.length))) :=
    isAt.searched (Nat.le_refl _) (by omega) (by omega)
  have finds : Cursor.Finds Lexeme.isSignificant _ _
      (lexer.frontier.scan Lexeme.isSignificant (byteSize lexer.frontier.rest)) :=
    lexer.frontier.exists_yields.choose_spec.choose_spec.scan rfl (Nat.le_refl _)
  generalize lexer.frontier.scan _ _ = stretch at searched finds
  generalize runAt scanner (search count _) = outcome at searched
  obtain ⟨result, same, isAt'⟩ := searched
  change Foretells source (stretch.outcome, { lexer with
    after := lexer.after ++ stretch.tokens, frontier := stretch.cursor }) outcome
  refine ⟨⟨mirrors.source_eq, ?_, ?_, ?_, isAt'⟩, ?_, fun token reached => ?_⟩
  · rw [same, mirrors.entries]
    simp [Lexer.tokens]
  · rw [same]
    exact mirrors.current
  · rw [same]
    have found := mirrors.last
    exact (List.getElem?_append_left (List.getElem?_eq_some_iff.mp found).1).trans found
  · rw [result]
    cases reached : stretch.outcome with
    | error error => rfl
    | ok token =>
        change Except.ok _ = Except.ok (Lexer.step _).before.length
        simp only [step_of_finds finds unseen reached, List.length_append,
          List.length_reverse, List.length_cons]
        have current := mirrors.current
        congr 1
        omega
  · rw [step_of_finds finds unseen reached]

theorem Mirrors.foretells (mirrors : Mirrors source scanner lexer)
    (ended : lexer.current.isEndOfFile = true → lexer.after = []) :
    Foretells source lexer.lookahead (runAt scanner lookaheadIndex) := by
  obtain ⟨passed, isAt⟩ := mirrors.isAt
  rw [lookaheadIndex, runAt_get_bind, runAt_bind, runAt_entryAt mirrors.currentEntry,
    Lexer.lookahead]
  change Foretells source _ (runAt scanner (if lexer.current.isEndOfFile then _ else _))
  cases isEnd : lexer.current.isEndOfFile with
  | true =>
      rw [if_pos rfl, if_pos rfl]
      exact mirrors.foretells_end (ended isEnd)
  | false =>
      rw [if_neg Bool.false_ne_true, if_neg Bool.false_ne_true, isAt.text]
      cases read : lexer.after.find? Token.isSignificant with
      | some token =>
          obtain ⟨seen, comments, more, found, unseen⟩ :=
            List.find?_eq_some_iff_append.mp read
          exact mirrors.foretells_found found (by simpa using unseen) seen (by omega)
      | none => exact mirrors.foretells_readOn (by
        simpa using List.find?_eq_none.mp read) (by omega)

/-! ## Calls -/

/-- What a lexer answers, with the token in numbers, or its fault -/
def answerOf : Except LexicalError Token → Checked Entry
  | .ok token => .ok (.ofToken token)
  | .error error => .error (.fault error)

theorem Foretells.found {answer : Except LexicalError Token × Lexer}
    {outcome : Checked Nat × Scanner}
    (foretells : Foretells source answer outcome) {token : Token}
    (reached : answer.1 = .ok token) :
    outcome.2.entries[answer.2.step.before.length]? = some (.ofToken token) := by
  rw [foretells.mirrors.entries, ← Lexer.tokens_step, List.getElem?_map,
    Lexer.tokens_getElem?, foretells.moves token reached, Option.map_some]

theorem Mirrors.step (mirrors : Mirrors source scanner lexer) : Mirrors source
    { scanner with
      last := scanner.current, current := lexer.step.before.length } lexer.step := by
  have kept : lexer.step.source = lexer.source ∧ lexer.step.last = lexer.current ∧
      lexer.step.frontier = lexer.frontier := by
    unfold Lexer.step
    split <;> exact ⟨rfl, rfl, rfl⟩
  obtain ⟨source_eq, last, frontier⟩ := kept
  obtain ⟨passed, isAt⟩ := mirrors.isAt
  refine ⟨source_eq ▸ mirrors.source_eq, by
    rw [lexer.tokens_step]; exact mirrors.entries, rfl, ?_, passed, ?_⟩
  · rw [last]
    exact mirrors.currentEntry
  · rw [frontier]
    exact ⟨isAt.text, isAt.located, isAt.tracks, isAt.index, isAt.last, isAt.stop_le,
      isAt.advances, isAt.ordered⟩

/-- A call comes to what the lexer answers, and leaves the scanner where the lexer is. -/
theorem Mirrors.call (mirrors : Mirrors source scanner lexer)
    (ended : lexer.current.isEndOfFile = true → lexer.after = []) (next : Lexer.Call) :
    (runAt scanner (call next)).1 = answerOf (lexer.call next).1 ∧
      Mirrors source (runAt scanner (call next)).2 (lexer.call next).2 := by
  have foretells := mirrors.foretells ended
  have found := fun token => @Foretells.found _ _ _ foretells token
  obtain ⟨mirrors', result, _⟩ := foretells
  generalize looked : runAt scanner lookaheadIndex = outcome at mirrors' result found
  generalize answer : lexer.lookahead = reply at mirrors' result found
  obtain ⟨outcome, scanner'⟩ := outcome
  obtain ⟨reply, lexer'⟩ := reply
  cases result
  cases next with
  | lookahead =>
      change (runAt scanner (lookaheadIndex >>= _)).1 = answerOf lexer.lookahead.1 ∧
        Mirrors source (runAt scanner (lookaheadIndex >>= _)).2 lexer.lookahead.2
      rw [runAt_bind, looked, answer]
      cases reply with
      | error error => exact ⟨rfl, mirrors'⟩
      | ok token =>
          simp only [runAt_entryAt (found token rfl)]
          exact ⟨rfl, mirrors'⟩
  | advance =>
      change (runAt scanner (lookaheadIndex >>= _)).1 = answerOf lexer.advance.1 ∧
        Mirrors source (runAt scanner (lookaheadIndex >>= _)).2 lexer.advance.2
      rw [runAt_bind, looked, Lexer.advance, answer]
      cases reply with
      | error error => exact ⟨rfl, mirrors'⟩
      | ok token =>
          let scanner'' : Scanner :=
            { scanner' with
              last := scanner'.current, current := lexer'.step.before.length }
          change (runAt scanner'' (entryAt lexer'.step.before.length)).1 = _ ∧
            Mirrors source
              (runAt scanner'' (entryAt lexer'.step.before.length)).2 lexer'.step
          have here : scanner''.entries[lexer'.step.before.length]? =
              some (.ofToken token) := found token rfl
          rw [runAt_entryAt here]
          exact ⟨rfl, mirrors'.step⟩

variable {tokens ahead : List Token} {ending : Option LexicalError}

theorem after_eq_nil (moves : lexer.Moves source tokens ending ahead)
    (yields : source.Yields tokens ending)
    (isEnd : lexer.current.isEndOfFile = true) : lexer.after = [] := by
  obtain ⟨unread, along, _⟩ := moves.along
  have whole := yields
  rw [along.split, Lexer.tokens, List.append_assoc, List.cons_append] at whole
  exact (List.append_eq_nil_iff.mp (whole.nothing_after isEnd).1).1

/-- Calls come to what the lexer answers, one after another. -/
theorem Mirrors.run (mirrors : Mirrors source scanner lexer)
    (moves : lexer.Moves source tokens ending ahead)
    (yields : source.Yields tokens ending) (calls : List Lexer.Call) :
    scanner.answers calls = (lexer.answers calls).map answerOf ∧
      Mirrors source (scanner.run calls) (lexer.run calls) := by
  induction calls generalizing scanner lexer ahead with
  | nil => exact ⟨rfl, mirrors⟩
  | cons next calls induction =>
      obtain ⟨answer, mirrors'⟩ := mirrors.call (after_eq_nil moves yields) next
      obtain ⟨ahead', moves'⟩ := moves.call yields next
      obtain ⟨answers, mirrors''⟩ := induction mirrors' moves'
      refine ⟨?_, mirrors''⟩
      rw [Lexer.answers, List.map_cons, ← answers, ← answer]
      rfl

theorem Mirrors.intoEntries (mirrors : Mirrors source scanner lexer)
    (moves : lexer.Moves source tokens ending ahead)
    (yields : source.Yields tokens ending) {rounds : Nat}
    (enough : ahead.length < rounds) :
    (runAt scanner (intoEntries rounds)).1 = match tokenize source with
      | .ok tokens => .ok (tokens.map .ofToken)
      | .error error => .error (.fault error) := by
  induction rounds generalizing scanner lexer ahead with
  | zero => cases enough
  | succ rounds induction =>
      rw [Scanner.intoEntries, runAt_get_bind, runAt_bind,
        runAt_entryAt mirrors.currentEntry]
      change (runAt scanner (if lexer.current.isEndOfFile then _ else _)).1 = _
      cases isEnd : lexer.current.isEndOfFile with
      | true =>
          obtain ⟨unread, along, _⟩ := moves.along
          have ended : lexer.tokens.any Token.isEndOfFile = true :=
            List.any_eq_true.mpr ⟨_, lexer.current_mem_tokens, isEnd⟩
          rw [if_pos rfl, ← along.intoTokens_eq yields, Lexer.intoTokens, if_pos ended]
          exact congrArg Except.ok mirrors.entries
      | false =>
          obtain ⟨answer, mirrors'⟩ := mirrors.call (after_eq_nil moves yields) .advance
          have advances := moves.advance yields
          change (runAt scanner (Scanner.call .advance >>= _)).1 = _
          rw [runAt_bind]
          generalize runAt scanner (Scanner.call .advance) = outcome at answer mirrors'
          obtain ⟨outcome, scanner'⟩ := outcome
          cases answer
          generalize failed : lexer.call .advance = reply at mirrors'
          change Lexer.Advances source tokens ending lexer ahead
            (lexer.call .advance) at advances
          rw [failed] at advances
          cases advances with
          | atEnd isEnd' =>
              rw [isEnd] at isEnd'
              cases isEnd'
          | moved _ moves' =>
              exact induction mirrors' moves' (Nat.lt_of_succ_lt_succ enough)
          | fault =>
              rw [(moves.fails yields failed).atFault.1]

/-! ## Bounds -/

/-- What holds of a scanner between its tokens: the mark is on the line on which the last
token ends, and the tokens go forward. -/
structure Keeps (source : Source) (scanner : Scanner) : Prop where
  current_lt : scanner.current < scanner.entries.length
  last_lt : scanner.last < scanner.entries.length
  isOn : ∃ entry, scanner.entries.getLast? = some entry ∧
    scanner.mark.IsOn source entry.stop
  ordered : scanner.entries.Pairwise fun entry next => entry.stop ≤ next.start
  advances : ∀ entry ∈ scanner.entries, entry.Advances
  stop_le : ∀ entry ∈ scanner.entries, entry.stop ≤ source.size

theorem Mirrors.keeps (mirrors : Mirrors source scanner lexer) :
    scanner.Keeps source := by
  obtain ⟨passed, isAt⟩ := mirrors.isAt
  obtain ⟨before, entry, split, stop⟩ := isAt.last
  have reaches : Reaches source.chars scanner.mark passed lexer.frontier.rest :=
    ⟨isAt.located.whole, isAt.tracks, isAt.located.uncut⟩
  refine ⟨?_, ?_, ⟨entry, ?_, ?_⟩, isAt.ordered, isAt.advances, fun entry member => ?_⟩
  · exact (List.getElem?_eq_some_iff.mp mirrors.currentEntry).1
  · exact (List.getElem?_eq_some_iff.mp mirrors.last).1
  · rw [split, List.getLast?_concat]
  · rw [stop]
    exact reaches.isOn
  · rw [source.size_eq, isAt.located.whole, byteSize_append]
    exact Nat.le_trans (isAt.stop_le entry member) (Nat.le_add_right ..)

theorem answerOf_ne (answer : Except LexicalError Token) :
    answerOf answer ≠ .error .outOfBounds ∧ answerOf answer ≠ .error .endless := by
  cases answer <;> exact ⟨nofun, nofun⟩

/-- Whatever it is asked of whatever source, a scanner takes no slice out of bounds and
comes to an end: it answers as the lexer does, it holds the tokens that the lexer has
read, and all the tokens are those of the source. Between them, the mark is on the line
where the last one ends. -/
theorem run_inBounds (source : Source) (calls : List Lexer.Call) :
    (start source.chars).answers calls =
      ((Lexer.start source).answers calls).map answerOf ∧
    (∀ answer ∈ (start source.chars).answers calls, answer ≠ .error .outOfBounds ∧
      answer ≠ .error .endless) ∧
    ((start source.chars).run calls).entries =
      ((Lexer.start source).run calls).tokens.map .ofToken ∧
    (runAt ((start source.chars).run calls) (Scanner.intoEntries (source.size + 2))).1 =
      (match tokenize source with
        | .ok tokens => .ok (tokens.map .ofToken)
        | .error error => .error (.fault error)) ∧
    ((start source.chars).run calls).Keeps source := by
  obtain ⟨tokens, ending, yields⟩ := source.exists_yields
  obtain ⟨ahead, moves, _⟩ := Lexer.moves_start yields
  obtain ⟨answers, mirrors⟩ := (mirrors_start source).run moves yields calls
  obtain ⟨ahead', moves'⟩ := moves.run yields calls
  have enough : ahead'.length < source.size + 2 := by
    have all := congrArg List.length moves'.significant_eq
    have le : (significant tokens).length ≤ tokens.length := List.length_filter_le ..
    have le' := yields.length_le
    rw [List.length_append, List.length_cons] at all
    omega
  refine ⟨answers, ?_, mirrors.entries, mirrors.intoEntries moves' yields enough,
    mirrors.keeps⟩
  rw [answers]
  intro answer member
  obtain ⟨reply, _, rfl⟩ := List.mem_map.mp member
  exact answerOf_ne reply

/-- Behind a block string the columns are those of the line on which it ends. -/
example :
    (start "\"\"\"\r\n\"\"\" b".toList).answers [.advance, .lookahead] =
      [.ok ⟨.blockString "", 0, 8, 1, 1, 1⟩, .ok ⟨.name "b", 9, 10, 2, 5, 2⟩] := by rfl

end Scanner

end Scanning

end GraphQL
