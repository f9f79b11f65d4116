import GraphQL.Proofs.Lexing.LineEnds
import GraphQL.Proofs.Locating.Diagnostic

/-! Sources do not depend on the ends of their lines.

With LF in place of every CR LF and of every other CR, tokens move to other offsets, but
stay on their lines and in their columns, and so does what is wrong with a source. -/

namespace GraphQL

open Text

/-- What a token says, and the line and column where it begins -/
def Token.face (token : Token) : Lexeme × Location := (token.lexeme, token.start.location)

def LexicalError.locationIn (source : Source) (error : LexicalError) : Location :=
  source.locationAt error.offset

variable {source source' : Source} {tokens : List Token} {ending : Option LexicalError}

/-! ## Tokens -/

namespace Cursor

/-- The cursors have come through the same lines, and have the same ahead
but for their ends. -/
structure Resembles (cursor cursor' : Cursor) : Prop where
  rest_eq : cursor'.rest = withLineFeeds cursor.rest
  location_eq : cursor'.position.location = cursor.position.location

variable {cursor cursor' after : Cursor} {token : Token} {passed passed' : List Char}

theorem resembles_start (source : Source) :
    (start source).Resembles (start source.withLineFeeds) :=
  ⟨source.chars_withLineFeeds, rfl⟩

namespace Resembles

theorem tokenStart_eq (resembles : cursor.Resembles cursor') :
    cursor'.tokenStart.location = cursor.tokenStart.location := by
  change cursor'.position.location.after _ = cursor.position.location.after _
  rw [resembles.location_eq, resembles.rest_eq, takeWhile_withLineFeeds rfl,
    Location.after_withLineFeeds]

theorem agrees (resembles : cursor.Resembles cursor') :
    Agrees Reading.withLineFeeds (readToken (cursor.rest.dropWhile isIgnored))
      (readToken (cursor'.rest.dropWhile isIgnored)) := by
  rw [resembles.rest_eq, dropWhile_withLineFeeds rfl]
  exact readToken_agrees _

theorem next (resembles : cursor.Resembles cursor')
    (next : cursor.next = .ok (token, after)) :
    ∃ token' after', cursor'.next = .ok (token', after') ∧ token'.face = token.face ∧
      after.Resembles after' := by
  obtain ⟨reading, read, rfl, rfl⟩ := next_eq_ok.mp next
  have agrees := resembles.agrees
  rw [read] at agrees
  refine ⟨_, _, next_eq_ok.mpr ⟨_, agrees.of_ok, rfl, rfl⟩, ?_, rfl, ?_⟩
  · exact Prod.ext rfl resembles.tokenStart_eq
  · change cursor'.tokenStart.location.after (withLineFeeds reading.text) =
      cursor.tokenStart.location.after reading.text
    rw [resembles.tokenStart_eq, Location.after_withLineFeeds]

theorem next_error (resembles : cursor.Resembles cursor')
    (located : cursor.Located source passed)
    (located' : cursor'.Located source' passed') {error : LexicalError}
    (next : cursor.next = .error error) :
    ∃ error', cursor'.next = .error error' ∧
      error'.locationIn source' = error.locationIn source := by
  obtain ⟨misread, outcome, rfl⟩ := next_eq_error.mp next
  have agrees := resembles.agrees
  rw [outcome] at agrees
  obtain ⟨misread', outcome', same⟩ := agrees.of_error
  obtain ⟨before, rest, whole, walked⟩ := located.tokenStart_after outcome
  obtain ⟨before', rest', whole', walked'⟩ := located'.tokenStart_after outcome'
  refine ⟨_, next_eq_error.mpr ⟨misread', outcome', rfl⟩, ?_⟩
  rw [LexicalError.locationIn, LexicalError.locationIn,
    Source.locationAt_offset whole walked, Source.locationAt_offset whole' walked']
  change cursor'.tokenStart.location.after misread'.text =
    cursor.tokenStart.location.after misread.text
  rw [resembles.tokenStart_eq, same, Location.after_withLineFeeds]

end Resembles

/-- The tokens ahead are the same, and end at the same line and column if a
fault ends them. -/
theorem Yields.resembles (yields : cursor.Yields tokens ending)
    (resembles : cursor.Resembles cursor')
    (located : cursor.Located source passed)
    (located' : cursor'.Located source' passed') :
    ∃ tokens' ending', cursor'.Yields tokens' ending' ∧
      tokens'.map Token.face = tokens.map Token.face ∧
      ending'.map (·.locationIn source') = ending.map (·.locationIn source) := by
  induction yields generalizing cursor' passed passed' with
  | fault next =>
      obtain ⟨error', next', same⟩ := resembles.next_error located located' next
      exact ⟨[], some error', .fault next', rfl, congrArg some same⟩
  | last next atEnd =>
      obtain ⟨token', after', next', face, _⟩ := resembles.next next
      have atEnd' : token'.isEndOfFile = true :=
        (congrArg (·.1.isEndOfFile) face).trans atEnd
      exact ⟨[token'], none, .last next' atEnd', congrArg ([·]) face, rfl⟩
  | more next notEnd _ induction =>
      obtain ⟨token', after', next', face, resembles'⟩ := resembles.next next
      obtain ⟨_, _, behind⟩ := located.next next
      obtain ⟨_, _, behind'⟩ := located'.next next'
      obtain ⟨tokens', ending', yields', faces, same⟩ :=
        induction resembles' behind behind'
      have notEnd' : token'.isEndOfFile = false :=
        (congrArg (·.1.isEndOfFile) face).trans notEnd
      refine ⟨token' :: tokens', ending', .more next' notEnd' yields', ?_, same⟩
      rw [List.map_cons, List.map_cons, face, faces]

end Cursor

theorem Source.Yields.withLineFeeds (yields : source.Yields tokens ending) :
    ∃ tokens' ending', source.withLineFeeds.Yields tokens' ending' ∧
      tokens'.map Token.face = tokens.map Token.face ∧
        ending'.map (·.locationIn source.withLineFeeds) =
          ending.map (·.locationIn source) := by
  obtain ⟨rest, rfl, yields⟩ := yields
  obtain ⟨rest', ending', yields', faces, same⟩ :=
    yields.resembles (Cursor.resembles_start source)
      (Cursor.located_start source) (Cursor.located_start source.withLineFeeds)
  exact ⟨_, ending', ⟨rest', rfl, yields'⟩, congrArg (_ :: ·) faces, same⟩

section

variable {tokens' : List Token} (faces : tokens'.map Token.face = tokens.map Token.face)

include faces

theorem significant_faces :
    (significant tokens').map Token.face = (significant tokens).map Token.face := by
  have each : ∀ tokens, (significant tokens).map Token.face =
      (tokens.map Token.face).filter (·.1.isSignificant) := by
    intro tokens
    rw [List.filter_map]
    rfl
  rw [each, each, faces]

theorem agree_of_faces :
    tokens'.map (fun token => (token.kind, token.value, token.line, token.column)) =
    tokens.map fun token => (token.kind, token.value, token.line, token.column) := by
  have each : ∀ tokens : List Token,
      tokens.map (fun token => (token.kind, token.value, token.line, token.column)) =
        (tokens.map Token.face).map
          fun face => (face.1.kind, face.1.value, face.2.line, face.2.column) := by
    intro tokens
    rw [List.map_map]
    rfl
  rw [each, each, faces]

theorem lexemes_eq_of_faces : lexemes tokens' = lexemes tokens := by
  have each : ∀ tokens, lexemes tokens =
      ((significant tokens).map Token.face).map Prod.fst := by
    intro tokens
    rw [List.map_map]
    rfl
  rw [each, each, significant_faces faces]

end

/-! ## Outcomes -/

/-- Two outcomes are the same, or report the same at the same lines and columns. -/
inductive SameReport {α : Type} : Except Diagnostic α → Except Diagnostic α → Prop
  | result (value : α) : SameReport (.ok value) (.ok value)
  | failure {diagnostic diagnostic' : Diagnostic} : diagnostic'.kind = diagnostic.kind →
      diagnostic'.message = diagnostic.message →
      diagnostic'.locations = diagnostic.locations →
      SameReport (.error diagnostic) (.error diagnostic')

theorem Token.IsPlaced.locations_eq {token : Token} (placed : token.IsPlaced source)
    {diagnostic : Diagnostic}
    (named : diagnostic.source = some source)
    (offsets : diagnostic.offsets = [token.start.offset]) :
    diagnostic.locations = [token.start.location] := by
  rw [Diagnostic.locations, named, offsets, ← placed.locationAt_eq]
  rfl

/-- Faults with tokens that look alike are reported alike. -/
theorem SameOutcome.sameReport {α : Type} {tokens' : List Token}
    {outcome outcome' : Except Diagnostic α}
    (same : SameOutcome (significant tokens) (significant tokens') outcome outcome')
    (faces : tokens'.map Token.face = tokens.map Token.face)
    (placed : ∀ token ∈ tokens, token.IsPlaced source)
    (placed' : ∀ token ∈ tokens', token.IsPlaced source')
    (named : ∀ diagnostic, outcome = .error diagnostic → diagnostic.source = some source)
    (named' : ∀ diagnostic, outcome' = .error diagnostic →
      diagnostic.source = some source') :
    SameReport outcome outcome' := by
  cases same with
  | result value => exact .result value
  | @failure _ _ ordinal token token' kind message found found' offsets offsets' =>
      have seen : ∀ {tokens : List Token} {token}, (significant tokens)[ordinal]? =
          some token → token ∈ tokens :=
        fun found => (List.mem_filter.mp (List.mem_of_getElem? found)).1
      have face : some token'.face = some token.face := by
        have both : ((significant tokens').map Token.face)[ordinal]? =
            ((significant tokens).map Token.face)[ordinal]? := by
              rw [significant_faces faces]
        rwa [List.getElem?_map, List.getElem?_map, found, found'] at both
      refine .failure kind message ?_
      rw [(placed _ (seen found)).locations_eq (named _ rfl) offsets,
        (placed' _ (seen found')).locations_eq (named' _ rfl) offsets']
      exact congrArg ([·]) (congrArg Prod.snd (Option.some.inj face))

/-- How a source is read does not depend on the ends of its lines, but for
where its nodes are. -/
theorem lineEnds_agree (source : Source) :
    ((∃ tokens', tokensOf source.withLineFeeds = .ok tokens') ↔
      ∃ tokens, tokensOf source = .ok tokens) ∧
      (∀ tokens tokens', tokensOf source = .ok tokens →
        tokensOf source.withLineFeeds = .ok tokens' →
        tokens'.map (fun token => (token.kind, token.value, token.line, token.column)) =
            tokens.map (fun token =>
              (token.kind, token.value, token.line, token.column)) ∧
          ∀ options : ParseOptions, options.noLocation = true →
            SameReport (parse source options) (parse source.withLineFeeds options)) ∧
      ∀ diagnostic diagnostic', tokensOf source = .error diagnostic →
        tokensOf source.withLineFeeds = .error diagnostic' →
        diagnostic'.locations = diagnostic.locations := by
  obtain ⟨all, ending, yields⟩ := source.exists_yields
  obtain ⟨all', ending', yields', faces, same⟩ := yields.withLineFeeds
  cases ending with
  | none =>
      obtain rfl := Option.map_eq_none_iff.mp same
      have tokenized := tokensOf_eq_ok yields
      have tokenized' := tokensOf_eq_ok yields'
      obtain ⟨inner, consists⟩ := yields.consists
      have consists' : source.withLineFeeds.Consists all' inner :=
        ⟨yields', (lexemes_eq_of_faces faces).trans consists.lexemes_eq⟩
      have sameReport : ∀ options : ParseOptions, options.noLocation = true →
          SameReport (parse source options) (parse source.withLineFeeds options) :=
        fun options erased => (sameOutcome_document erased consists consists').sameReport
          faces yields.isPlaced
          yields'.isPlaced (fun _ failed =>
            (pinpoints_of_error (.inr (.inl failed))).source_eq)
          fun _ failed => (pinpoints_of_error (.inr (.inl failed))).source_eq
      rw [tokenized, tokenized']
      refine ⟨⟨fun _ => ⟨all, rfl⟩, fun _ => ⟨all', rfl⟩⟩, ?_, fun _ _ failed =>
        by cases failed⟩
      intro _ _ equal equal'
      obtain rfl := Except.ok.inj equal
      obtain rfl := Except.ok.inj equal'
      exact ⟨agree_of_faces faces, sameReport⟩
  | some error =>
      obtain ⟨error', rfl, located⟩ := Option.map_eq_some_iff.mp same
      rw [tokensOf_eq_error yields, tokensOf_eq_error yields']
      refine ⟨⟨?_, ?_⟩, fun _ _ tokenized => ?_, fun _ _ failed failed' => ?_⟩
      · rintro ⟨_, equal⟩
        cases equal
      · rintro ⟨_, equal⟩
        cases equal
      · cases tokenized
      · obtain rfl := Except.error.inj failed
        obtain rfl := Except.error.inj failed'
        exact congrArg ([·]) located

theorem returns_agree :
    (∃ tokens tokens', tokensOf { body := "\x7ba(b:\"\"\"\r\n c\r d\"\"\")\x7d" } =
      .ok tokens ∧
      tokensOf (Source.withLineFeeds { body := "\x7ba(b:\"\"\"\r\n c\r d\"\"\")\x7d" }) =
        .ok tokens' ∧
        tokens'.map (fun token => (token.kind, token.value, token.line, token.column)) =
            tokens.map (fun token =>
              (token.kind, token.value, token.line, token.column)) ∧
          SameReport (parse { body := "\x7ba(b:\"\"\"\r\n c\r d\"\"\")\x7d" } ⟨true, 9⟩)
            (parse (Source.withLineFeeds
              { body := "\x7ba(b:\"\"\"\r\n c\r d\"\"\")\x7d" }) ⟨true, 9⟩)) ∧
      ∃ diagnostic diagnostic', tokensOf { body := "#\r\r\n\"a\r\"" } =
        .error diagnostic ∧
        tokensOf (Source.withLineFeeds { body := "#\r\r\n\"a\r\"" }) =
          .error diagnostic' ∧
          diagnostic'.locations = diagnostic.locations ∧
          diagnostic.locations = [⟨3, 3⟩] := by
  have tokenized : tokensOf { body := "\x7ba(b:\"\"\"\r\n c\r d\"\"\")\x7d" } = .ok _ :=
    rfl
  have tokenized' :
      tokensOf (Source.withLineFeeds { body := "\x7ba(b:\"\"\"\r\n c\r d\"\"\")\x7d" }) =
        .ok _ := rfl
  have failed : tokensOf { body := "#\r\r\n\"a\r\"" } = .error _ := rfl
  have failed' :
      tokensOf (Source.withLineFeeds { body := "#\r\r\n\"a\r\"" }) = .error _ := rfl
  obtain ⟨agree, same⟩ := (lineEnds_agree _).2.1 _ _ tokenized tokenized'
  exact ⟨⟨_, _, tokenized, tokenized', agree, same ⟨true, 9⟩ rfl⟩,
    _, _, failed, failed', (lineEnds_agree _).2.2 _ _ failed failed', rfl⟩

end GraphQL
