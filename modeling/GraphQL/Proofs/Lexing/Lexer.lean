import GraphQL.Proofs.Derivation.Basic
import GraphQL.Proofs.Lexing.Source

/-! A lexer moves along the tokens of its source.

Whatever it has been asked, a lexer holds a part of the tokens, and reads the rest
of them when it reads on. -/

namespace GraphQL

open Text

namespace Lexer

inductive Unread (lexer : Lexer) : List Token → Option LexicalError → Prop
  /-- The end has been read. -/
  | nothing : (∃ token ∈ lexer.current :: lexer.after, token.isEndOfFile = true) →
      Unread lexer [] none
  | ahead {tokens ending} :
      lexer.frontier.In lexer.source → lexer.frontier.Yields tokens ending →
        Unread lexer tokens ending

/-- The lexer has come to a token that the grammar sees. It holds a part of the tokens of
its source, and has the rest of them to read. -/
structure Along (source : Source) (tokens : List Token) (ending : Option LexicalError)
    (lexer : Lexer) (unread : List Token) : Prop where
  source_eq : lexer.source = source
  isSignificant : lexer.current.isSignificant = true
  split : tokens = lexer.tokens ++ unread
  left : lexer.Unread unread ending

/-- The lexer stands at a place among the tokens of its source. -/
structure Stands (source : Source) (tokens : List Token) (ending : Option LexicalError)
    (lexer : Lexer) (place : Place) : Prop where
  source_eq : lexer.source = source
  isSignificant : lexer.current.isSignificant = true
  last : lexer.last.ordinal = place.ordinal - 1
  behind : (significant lexer.before.reverse).length = place.ordinal
  unread : ∃ unread, tokens = lexer.tokens ++ unread ∧ lexer.Unread unread ending ∧
    place.ahead = lexemes (lexer.current :: lexer.after ++ unread)

variable {source : Source} {tokens unread : List Token} {ending : Option LexicalError}
variable {lexer : Lexer}
variable {place : Place}

theorem along_start (yields : source.Yields tokens ending) :
    ∃ unread, (start source).Along source tokens ending unread := by
  obtain ⟨rest, rfl, yields⟩ := yields
  exact ⟨rest, rfl, rfl, rfl, .ahead (Cursor.in_start source) yields⟩

theorem stands_start (yields : source.Yields tokens ending) :
    (start source).Stands source tokens ending ⟨0, lexemes tokens⟩ := by
  obtain ⟨rest, rfl, yields⟩ := yields
  refine ⟨rfl, rfl, rfl, rfl, rest, rfl, .ahead (Cursor.in_start source) yields, rfl⟩

namespace Stands

theorem along (stands : lexer.Stands source tokens ending place) :
    ∃ unread, lexer.Along source tokens ending unread ∧
      place.ahead = lexemes (lexer.current :: lexer.after ++ unread) := by
  obtain ⟨source_eq, isSignificant, _, _, unread, split, left, ahead⟩ := stands
  exact ⟨unread, ⟨source_eq, isSignificant, split, left⟩, ahead⟩

theorem current_eq (stands : lexer.Stands source tokens ending place) :
    lexer.current.lexeme = place.current := by
  obtain ⟨unread, _, _, ahead⟩ := stands.unread
  rw [Place.current, ahead]
  simp [lexemes, significant, stands.isSignificant, foremost]

theorem ordinal (stands : lexer.Stands source tokens ending place)
    (yields : source.Yields tokens ending) : lexer.current.ordinal = place.ordinal := by
  obtain ⟨unread, rfl, _, _⟩ := stands.unread
  have numbered := yields.numbered
  rw [Lexer.tokens, List.append_assoc, numbered_append, List.cons_append] at numbered
  rw [numbered.2.1, stands.behind, Nat.zero_add]

theorem ordinal_lt (stands : lexer.Stands source tokens ending place) :
    place.ordinal < lexer.significantTokens.length := by
  change _ < (significant lexer.tokens).length
  rw [Lexer.tokens, significant_append, List.length_append, stands.behind]
  simp [significant, stands.isSignificant]

end Stands

theorem not_isEndOfFile_of_not_isSignificant {token : Token}
    (comment : token.isSignificant = false) : token.isEndOfFile = false := by
  cases atEnd : token.isEndOfFile with
  | false => rfl
  | true =>
      rw [Token.isSignificant, lexeme_of_isEndOfFile atEnd] at comment
      cases comment

/-! ## Looking ahead -/

/-- What the lexer finds when it looks ahead: the next token that the grammar sees, behind
comments that it reads on the way -/
inductive Foresees (source : Source) (tokens : List Token) (ending : Option LexicalError)
    (lexer : Lexer) (unread : List Token) : Except LexicalError Token × Lexer → Prop
  | atEnd : lexer.current.isEndOfFile = true → lexer.after ++ unread = [] →
      ending = none →
      Foresees source tokens ending lexer unread (.ok lexer.current, lexer)
  | found {token lexer' comments after} : lexer.current.isEndOfFile = false →
      (∃ unread', lexer'.Along source tokens ending unread') →
      lexer' = { lexer with
        after := comments ++ token :: after, frontier := lexer'.frontier } →
      (∀ comment ∈ comments, comment.isSignificant = false) → token.isSignificant = true →
      Foresees source tokens ending lexer unread (.ok token, lexer')
  | fault {error lexer' comments} : lexer.current.isEndOfFile = false →
      lexer'.Along source tokens ending [] →
      lexer' = { lexer with
        after := lexer.after ++ comments, frontier := lexer'.frontier } →
      (∀ comment ∈ lexer.after ++ comments, comment.isSignificant = false) →
      ending = some error →
      Foresees source tokens ending lexer unread (.error error, lexer')

theorem Along.readOn (along : lexer.Along source tokens ending unread)
    (unended : lexer.current.isEndOfFile = false)
    (unseen : ∀ token ∈ lexer.after, token.isSignificant = false) :
    Foresees source tokens ending lexer unread lexer.readOn := by
  obtain ⟨rfl, isSignificant, split, left⟩ := along
  cases left with
  | nothing isEnd =>
      obtain ⟨token, member, isEnd⟩ := isEnd
      rcases List.mem_cons.mp member with rfl | member
      · rw [isEnd] at unended
        cases unended
      · have notEnd := not_isEndOfFile_of_not_isSignificant (unseen token member)
        rw [isEnd] at notEnd
        cases notEnd
  | ahead frontierIn left =>
      let stretch := lexer.frontier.scanSignificant lexer.source
      have finds : Cursor.Finds Lexeme.isSignificant unread ending stretch := by
        have finds : Cursor.Finds Lexeme.isSignificant unread ending
            (lexer.frontier.scan Lexeme.isSignificant (byteSize lexer.frontier.rest)) :=
          left.scan rfl (Nat.le_refl _)
        rwa [← frontierIn.remaining] at finds
      have frontierIn' : stretch.cursor.In lexer.source := frontierIn.scan _ _
      have answer : lexer.readOn = (stretch.outcome, { lexer with
        after := lexer.after ++ stretch.tokens
        frontier := stretch.cursor }) := rfl
      have unseen' : (∀ comment ∈ stretch.passed, comment.isSignificant = false) →
          ∀ comment ∈ lexer.after ++ stretch.passed, comment.isSignificant = false :=
        fun passed => List.forall_mem_append.mpr ⟨unseen, passed⟩
      cases finds with
      | @found token rest outcome split' passed seen further =>
          have read : stretch.tokens = stretch.passed ++ [token] := by
            rw [Stretch.tokens, outcome]
          rw [answer, outcome, read, ← List.append_assoc]
          refine .found unended ⟨rest, rfl, isSignificant, ?_, ?_⟩ rfl
            (unseen' passed) seen
          · simp [split, split', Lexer.tokens]
          · rcases further with ⟨isEnd, rfl, rfl⟩ | ⟨_, further⟩
            · exact .nothing ⟨token, by simp, isEnd⟩
            · exact .ahead frontierIn' further
      | @fault error outcome split' passed ended further =>
          have read : stretch.tokens = stretch.passed := by rw [Stretch.tokens, outcome]
          simp only [answer, outcome, read]
          refine .fault unended ⟨rfl, isSignificant, ?_, .ahead frontierIn' further⟩ rfl
            (unseen' passed) ended
          simp [split, split', Lexer.tokens]

theorem Along.foresees (along : lexer.Along source tokens ending unread)
    (yields : source.Yields tokens ending) :
    Foresees source tokens ending lexer unread lexer.lookahead := by
  cases atEnd : lexer.current.isEndOfFile with
  | true =>
      have whole := yields
      rw [along.split, Lexer.tokens, List.append_assoc, List.cons_append] at whole
      obtain ⟨nothing, ended⟩ := whole.nothing_after atEnd
      rw [Lexer.lookahead, if_pos atEnd]
      exact .atEnd atEnd nothing ended
  | false =>
      rw [Lexer.lookahead, if_neg (by simp [atEnd])]
      cases read : lexer.after.find? Token.isSignificant with
      | some token =>
          obtain ⟨seen, comments, after, equal, unseen⟩ :=
            List.find?_eq_some_iff_append.mp read
          exact .found atEnd ⟨unread, along⟩ (by
            rw [← equal]) (by simpa using unseen) seen
      | none => exact along.readOn atEnd (by simpa using List.find?_eq_none.mp read)

inductive LooksAhead (source : Source) (tokens : List Token)
    (ending : Option LexicalError)
    (place : Place) (lexer : Lexer) : Except LexicalError Token × Lexer → Prop
  | atEnd : lexer.current.isEndOfFile = true → place.ahead = [.endOfFile] →
      ending = none →
      LooksAhead source tokens ending place lexer (.ok lexer.current, lexer)
  | found {token lexer' comments after} : lexer'.Stands source tokens ending place →
      lexer'.current = lexer.current → lexer'.after = comments ++ token :: after →
      (∀ comment ∈ comments, comment.isSignificant = false) → token.isSignificant = true →
      LooksAhead source tokens ending place lexer (.ok token, lexer')
  | fault {error lexer'} : lexer'.Stands source tokens ending place →
      ending = some error →
      place.ahead = [place.current] →
      LooksAhead source tokens ending place lexer (.error error, lexer')

/-- However far a lexer has read, the tokens behind the current one are the same. -/
theorem Along.after_append {lexer' : Lexer} {unread' after : List Token}
    (along : lexer.Along source tokens ending unread)
    (along' : lexer'.Along source tokens ending unread')
    (same : lexer' = { lexer with after, frontier := lexer'.frontier }) :
    lexer.after ++ unread = after ++ unread' := by
  have split := along.split.symm.trans along'.split
  rw [same] at split
  simpa [Lexer.tokens] using split

theorem Stands.of_along (stands : lexer.Stands source tokens ending place)
    {lexer' : Lexer}
    (along' : lexer'.Along source tokens ending unread) {after : List Token}
    (same : lexer' = { lexer with after, frontier := lexer'.frontier }) :
    lexer'.Stands source tokens ending place := by
  obtain ⟨unread', along, ahead⟩ := stands.along
  rw [List.cons_append, along.after_append along' same] at ahead
  obtain ⟨source_eq, isSignificant, split, left⟩ := along'
  rw [same] at source_eq isSignificant split left ⊢
  exact ⟨source_eq, isSignificant, stands.last, stands.behind, unread, split, left, ahead⟩

theorem Stands.lookahead (stands : lexer.Stands source tokens ending place)
    (yields : source.Yields tokens ending) :
    LooksAhead source tokens ending place lexer lexer.lookahead := by
  obtain ⟨unread, along, ahead⟩ := stands.along
  have foresees := along.foresees yields
  generalize lexer.lookahead = result at foresees
  cases foresees with
  | atEnd isEnd nothing ended =>
      refine .atEnd isEnd ?_ ended
      rw [ahead, List.cons_append, nothing]
      simp [lexemes, significant, stands.isSignificant, lexeme_of_isEndOfFile isEnd]
  | found _ along' same unseen seen =>
      obtain ⟨unread', along'⟩ := along'
      exact .found (stands.of_along along' same) (by rw [same]) (by rw [same]) unseen seen
  | fault _ along' same unseen ended =>
      refine .fault (stands.of_along along' same) ended ?_
      rw [Place.current, ahead, List.cons_append, along.after_append along' same,
        List.append_nil, ← List.singleton_append, lexemes_append, lexemes_eq_nil unseen]
      simp [lexemes, significant, stands.isSignificant, foremost]

theorem step_of_found {comments after : List Token} {token : Token}
    (found : lexer.after = comments ++ token :: after)
    (unseen : ∀ comment ∈ comments, comment.isSignificant = false)
    (seen : token.isSignificant = true) :
    lexer.step = { lexer with
      before := comments.reverse ++ lexer.current :: lexer.before
      current := token
      last := lexer.current
      after } := by
  have drop : lexer.after.dropWhile (!·.isSignificant) = token :: after := by
    rw [found, List.dropWhile_append_of_pos (by simpa using unseen)]
    simp [seen]
  have take : lexer.after.takeWhile (!·.isSignificant) = comments := by
    rw [found, List.takeWhile_append_of_pos (by simpa using unseen)]
    simp [seen]
  simp only [Lexer.step, drop, take]

theorem tokens_step (lexer : Lexer) : lexer.step.tokens = lexer.tokens := by
  unfold Lexer.step
  split
  next => rfl
  next found =>
    have whole : lexer.after.takeWhile (!·.isSignificant) ++
        lexer.after.dropWhile (!·.isSignificant) =
        lexer.after := List.takeWhile_append_dropWhile
    rw [found] at whole
    simp only [Lexer.tokens, List.reverse_append, List.reverse_cons, List.reverse_reverse,
      List.append_assoc, List.cons_append, List.nil_append, whole]

theorem Along.step (along : lexer.Along source tokens ending unread)
    (yields : source.Yields tokens ending) {comments after : List Token} {token : Token}
    (found : lexer.after = comments ++ token :: after)
    (unseen : ∀ comment ∈ comments, comment.isSignificant = false)
    (seen : token.isSignificant = true) :
    lexer.step.Along source tokens ending unread := by
  have same := lexer.tokens_step
  obtain ⟨source_eq, isSignificant, split, left⟩ := along
  rw [step_of_found found unseen seen] at same ⊢
  refine ⟨source_eq, seen, by rw [same, split], ?_⟩
  cases left with
  | ahead frontierIn left => exact .ahead frontierIn left
  | nothing isEnd =>
      obtain ⟨final, member, isEnd⟩ := isEnd
      refine .nothing ⟨final, ?_, isEnd⟩
      rcases List.mem_cons.mp member with rfl | member
      · rw [split, Lexer.tokens, List.append_assoc, List.cons_append] at yields
        have empty := (yields.nothing_after isEnd).1
        simp [found] at empty
      · rw [found] at member
        rcases List.mem_append.mp member with member | member
        · rw [not_isEndOfFile_of_not_isSignificant (unseen final member)] at isEnd
          cases isEnd
        · exact member

theorem Stands.step (stands : lexer.Stands source tokens ending place)
    (yields : source.Yields tokens ending) {comments after : List Token} {token : Token}
    (found : lexer.after = comments ++ token :: after)
    (unseen : ∀ comment ∈ comments, comment.isSignificant = false)
    (seen : token.isSignificant = true) :
    ∃ rest, place.ahead = place.current :: token.lexeme :: rest ∧
      lexer.step.current = token ∧
      lexer.step.Stands source tokens ending
        ⟨place.ordinal + 1, token.lexeme :: rest⟩ := by
  have current_eq := stands.current_eq
  have ordinal := stands.ordinal yields
  obtain ⟨unread, along, ahead⟩ := stands.along
  obtain ⟨source_eq, _, split, left⟩ := along.step yields found unseen seen
  rw [step_of_found found unseen seen] at source_eq split left ⊢
  refine ⟨lexemes (after ++ unread), ?_, rfl, source_eq, seen, ordinal, ?_, unread,
    split, left, ?_⟩
  · rw [ahead, found, ← current_eq, List.cons_append, List.append_assoc,
      ← List.singleton_append, lexemes_append, lexemes_append, lexemes_eq_nil unseen]
    simp [lexemes, significant, stands.isSignificant, seen]
  · simp only [List.reverse_append, List.reverse_cons, List.reverse_reverse,
      significant_append, List.length_append, stands.behind, significant_eq_nil unseen]
    simp [significant, stands.isSignificant]
  · simp [lexemes, significant, seen]

/-! ## Sources with a fault -/

/-- The lexer will come to a fault, and never to an end. -/
def Endless (lexer : Lexer) : Prop :=
  (∀ token ∈ lexer.current :: lexer.after, token.isEndOfFile = false) ∧
    lexer.frontier.In lexer.source ∧
    ∃ tokens error, lexer.frontier.Yields tokens (some error)

theorem endless_start {error : LexicalError}
    (yields : source.Yields tokens (some error)) :
    (start source).Endless := by
  obtain ⟨rest, rfl, yields⟩ := yields
  exact ⟨by simp [start]; rfl, Cursor.in_start source, rest, error, yields⟩

namespace Endless

theorem lookahead (endless : lexer.Endless) : lexer.lookahead.2.Endless := by
  have ⟨unended, frontierIn, tokens, error, yields⟩ := endless
  rw [Lexer.lookahead, if_neg (by simp [unended lexer.current (List.mem_cons_self ..)])]
  split
  next => exact endless
  next =>
    let stretch := lexer.frontier.scanSignificant lexer.source
    have finds : Cursor.Finds Lexeme.isSignificant tokens (some error) stretch := by
      have finds : Cursor.Finds Lexeme.isSignificant tokens (some error)
          (lexer.frontier.scan Lexeme.isSignificant (byteSize lexer.frontier.rest)) :=
        yields.scan rfl (Nat.le_refl _)
      rwa [← frontierIn.remaining] at finds
    have others := yields.ends
    have frontierIn' : stretch.cursor.In lexer.source := frontierIn.scan _ _
    have read : ∀ token ∈ stretch.tokens, token ∈ tokens := by
      intro token member
      rw [Stretch.tokens] at member
      cases finds with
      | found outcome split =>
          simp only [outcome, List.mem_append, List.mem_singleton] at member
          rw [split, List.mem_append, List.mem_cons]
          exact member.imp_right .inl
      | fault outcome split =>
          simp only [outcome] at member
          exact split ▸ member
    have further : ∃ rest, stretch.cursor.Yields rest (some error) := by
      cases finds with
      | found _ _ _ _ behind => 
          rcases behind with ⟨_, _, ended⟩ | ⟨_, further⟩
          · cases ended
          · exact ⟨_, further⟩
      | fault _ _ _ _ further => exact ⟨_, further⟩
    refine ⟨fun token member => ?_, frontierIn', further.choose, error,
      further.choose_spec⟩
    change token ∈ (lexer.current :: lexer.after) ++ stretch.tokens at member
    rcases List.mem_append.mp member with member | member
    · exact unended token member
    · exact others token (read token member)

theorem step (endless : lexer.Endless) : lexer.step.Endless := by
  obtain ⟨unended, frontierIn, yields⟩ := endless
  unfold Lexer.step
  split
  next => exact ⟨unended, frontierIn, yields⟩
  next token after found =>
    refine ⟨fun other member => unended other (List.mem_cons_of_mem _ ?_),
      frontierIn, yields⟩
    exact (List.dropWhile_sublist _).mem (found ▸ member)

theorem advance (endless : lexer.Endless) : lexer.advance.2.Endless := by
  have ahead := endless.lookahead
  unfold Lexer.advance
  split
  next equal =>
    rw [equal] at ahead
    exact ahead.step
  next equal =>
    rw [equal] at ahead
    exact ahead

end Endless

end Lexer

end GraphQL
