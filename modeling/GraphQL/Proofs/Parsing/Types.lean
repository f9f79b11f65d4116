import GraphQL.Proofs.Lexing.Writing
import GraphQL.Proofs.Reading.Parse
import GraphQL.Proofs.Syntax.Maps

/-! Types as they are written.

The text of a type is laid out as the tokens that the type is derived from, and nothing
else is derived from these. So the text is read as the type again, and whatever is read as
a type has the text of its tokens. -/

namespace GraphQL

variable {L M : Type}

namespace TypeReference

/-- The name is a name, and no exclamation mark stands behind another. -/
def IsWellFormed : TypeReference L → Prop
  | named type => IsName type.name.text
  | list inner _ => inner.IsWellFormed
  | nonNull inner _ => inner.isNullable = true ∧ inner.IsWellFormed

def lists : TypeReference L → Nat
  | named _ => 0
  | list inner _ => inner.lists + 1
  | nonNull inner _ => inner.lists

/-- Whether null is a value of each of the lists, from the outside in, and
of the type within them -/
def nullability : TypeReference L → List Bool
  | named _ => [true]
  | list inner _ => true :: inner.nullability
  | nonNull inner _ => false :: inner.nullability.tail

/-- What the tokens say that the type is written as -/
def said : TypeReference L → List Lexeme
  | named type => [.name type.name.text]
  | list inner _ =>
      .punctuator .leftBracket :: (inner.said ++ [.punctuator .rightBracket])
  | nonNull inner _ => inner.said ++ [.punctuator .bang]

/-! ## Notes -/

theorem text_innermost_map (note : L → M) (type : TypeReference L) :
    (type.map note).innermost.name.text = type.innermost.name.text := by
  induction type with
  | named type => rfl
  | list inner location induction | nonNull inner location induction => exact induction

theorem nullability_map (note : L → M) (type : TypeReference L) :
    (type.map note).nullability = type.nullability := by
  induction type with
  | named type => rfl
  | list inner location induction | nonNull inner location induction =>
      simp [map, nullability, induction]

theorem text_map (note : L → M) (type : TypeReference L) :
    (type.map note).text = type.text := by
  induction type with
  | named type => rfl
  | list inner location induction | nonNull inner location induction =>
      simp [map, text, induction]

/-! ## The text of a type -/

theorem toList_text (type : TypeReference L) :
    type.text.toList = type.said.flatMap Lexeme.plainText := by
  induction type with
  | named type => simp [text, said, Lexeme.plainText]
  | list inner location induction =>
      rw [text, String.toList_append, String.toList_append, induction, said]
      simp [Lexeme.plainText, Punctuator.text]
  | nonNull inner location induction =>
      rw [text, String.toList_append, induction, said]
      simp [Lexeme.plainText, Punctuator.text]

/-- In front of what is laid out as other tokens and goes on with no name, the text of a
type is laid out as its tokens. -/
theorem laidOut {type : TypeReference L} (wellFormed : type.IsWellFormed)
    {others : List Lexeme} {rest : List Char} (laid : LaidOut others rest)
    (ends : ∀ char ∈ rest.head?, isNameContinue char = false) :
    LaidOut (type.said ++ others) (type.text.toList ++ rest) := by
  have marked : ∀ (mark : Punctuator) {others rest}, LaidOut others rest →
      LaidOut (.punctuator mark :: others) (mark.text.toList ++ rest) :=
        fun mark _ _ => by
    have isRead : (Lexeme.punctuator mark).IsReadFrom mark.text.toList :=
      Lexeme.isReadFrom_plainText rfl
    exact .cons isRead fun _ _ => rfl
  induction type generalizing others rest with
  | named type => exact .cons wellFormed.isReadFrom ends laid
  | list inner location induction =>
      have closed := induction wellFormed (marked .rightBracket laid) (by
        simp [Punctuator.text]; decide)
      have opened := marked .leftBracket closed
      simpa [said, text, Punctuator.text] using opened
  | nonNull inner location induction =>
      have followed :=
        induction wellFormed.2 (marked .bang laid) (by simp [Punctuator.text]; decide)
      simpa [said, text, Punctuator.text] using followed

theorem of_mem_said {type : TypeReference L} {lexeme : Lexeme}
    (member : lexeme ∈ type.said) :
    (∃ text, lexeme = .name text) ∨ ∃ mark, lexeme = .punctuator mark := by
  induction type with
  | named type => exact .inl ⟨_, List.mem_singleton.mp member⟩
  | list inner location induction =>
      simp only [said, List.mem_cons, List.mem_append, List.not_mem_nil, or_false]
        at member
      rcases member with opening | member | closing
      · exact .inr ⟨_, opening⟩
      · exact induction member
      · exact .inr ⟨_, closing⟩
  | nonNull inner location induction =>
      rcases List.mem_append.mp member with member | bang
      · exact induction member
      · exact .inr ⟨_, List.mem_singleton.mp bang⟩

theorem exists_consists {type : TypeReference L} (wellFormed : type.IsWellFormed)
    {source : Source}
    (body : source.body = type.text) : ∃ tokens, source.Consists tokens type.said := by
  have laid := laidOut wellFormed (.nothing rfl : LaidOut [] []) nofun
  rw [List.append_nil, List.append_nil, ← body] at laid
  obtain ⟨tokens, yields, said⟩ := source.exists_yields_of_laidOut laid
  refine ⟨tokens, yields, ?_⟩
  rw [lexemes_eq_filter, said, List.filter_eq_self]
  simp only [List.mem_cons, List.mem_append, List.not_mem_nil, or_false]
  rintro lexeme (rfl | member | rfl)
  · rfl
  · obtain ⟨_, rfl⟩ | ⟨_, rfl⟩ := of_mem_said member <;> rfl
  · rfl

/-! ## Derivations of a type -/

section

variable {noteOf : Nat → Nat → Extent} {depth : Nat} {constness : Constness}
variable {place after : Place}

theorem covers_of_derives {type : TypeReference Extent}
    (derives : (Node.type type).Derives noteOf depth constness place after) :
    place.Covers type.said after := by
  induction type generalizing depth constness place after with
  | named type =>
      rw [Node.derives_iff rfl] at derives
      simp only [Node.parts, parts, Spells.name_iff, Name.derives_iff, Spells.nil_iff]
        at derives
      obtain ⟨⟨_, ⟨covers, _⟩, rfl⟩, _⟩ := derives
      exact covers
  | list inner location induction =>
      obtain ⟨_, _, spells, _⟩ := (Node.derives_iff_of_nested rfl).mp derives
      simp only [Node.parts, parts, Spells.mark_iff, Spells.child_iff, Spells.nil_iff]
        at spells
      obtain ⟨_, opened, _, derives, _, closed, rfl⟩ := spells
      exact opened.trans ((induction derives).trans closed)
  | nonNull inner location induction =>
      rw [Node.derives_iff rfl] at derives
      simp only [Node.parts, parts, Spells.provided_iff, Spells.child_iff,
        Spells.mark_iff, Spells.nil_iff] at derives
      obtain ⟨⟨_, _, derives, _, marked, rfl⟩, _⟩ := derives
      exact (induction derives).trans marked

/-- The type is derived from its tokens, once its notes are those of their places. -/
theorem exists_derives {type : TypeReference L} (wellFormed : type.IsWellFormed)
    (deep : type.lists ≤ depth) (covers : place.Covers type.said after) :
    ∃ tree : TypeReference Extent,
      (Node.type tree).Derives noteOf depth constness place after ∧
      tree.map (fun _ => ()) = type.map fun _ => () := by
  induction type generalizing depth constness place after with
  | named type =>
      let extent := noteOf place.ordinal after.ordinal
      refine ⟨.named ⟨⟨type.name.text, extent⟩, extent⟩, ?_, rfl⟩
      rw [Node.derives_iff rfl]
      simp only [Node.parts, parts, Spells.name_iff, Name.derives_iff, Spells.nil_iff]
      exact ⟨⟨after, ⟨covers, rfl⟩, rfl⟩, rfl⟩
  | list inner location induction =>
      obtain ⟨depth, rfl⟩ :=
        Nat.exists_eq_add_of_le' (Nat.lt_of_lt_of_le (Nat.succ_pos _) deep)
      have covers :
          place.Covers ([.punctuator .leftBracket] ++
            (inner.said ++ [.punctuator .rightBracket])) after :=
        covers
      obtain ⟨first, opened, covers⟩ := covers.split
      obtain ⟨last, covers, closed⟩ := covers.split
      obtain ⟨tree, derives, same⟩ :=
        induction wellFormed (Nat.le_of_succ_le_succ deep) covers
      refine ⟨.list tree (noteOf place.ordinal after.ordinal), ?_, by rw [map, map, same]⟩
      refine (Node.derives_iff_of_nested rfl).mpr ⟨depth, rfl, ?_, rfl⟩
      simp only [Node.parts, parts, Spells.mark_iff, Spells.child_iff, Spells.nil_iff]
      exact ⟨first, opened, last, derives, after, closed, rfl⟩
  | nonNull inner location induction =>
      obtain ⟨last, covers, marked⟩ := covers.split
      obtain ⟨tree, derives, same⟩ := induction wellFormed.2 deep covers
      have isNullable : tree.isNullable = true := by
        rw [← isNullable_map (fun _ => ()), same, isNullable_map]
        exact wellFormed.1
      refine ⟨.nonNull tree (noteOf place.ordinal after.ordinal), ?_,
        by rw [map, map, same]⟩
      rw [Node.derives_iff rfl]
      simp only [Node.parts, parts, Spells.provided_iff, Spells.child_iff,
        Spells.mark_iff, Spells.nil_iff]
      exact ⟨⟨isNullable, last, derives, after, marked, rfl⟩, rfl⟩

end

end TypeReference

/-! ## What is parsed -/

section

variable {source : Source} {options : ParseOptions} {tokens : List Token}
variable {inner : List Lexeme}

theorem said_of_parseType (consists : source.Consists tokens inner)
    {result : TypeReference ParseOptions.Note}
    (parsed : parseType source options = .ok result) : ∃ tree : TypeReference Extent,
      tree.said = inner ∧ result.text = tree.text := by
  obtain ⟨tree, holds, rfl⟩ := (parseType_eq_ok consists).mp parsed
  obtain ⟨same, _⟩ := TypeReference.covers_of_derives holds
  exact ⟨tree, (List.append_cancel_right same).symm, TypeReference.text_map _ tree⟩

theorem Source.Tile.toList_textOf {token : Token} (tile : source.Tile token)
    (plain : token.lexeme.isSentinel = true ∨ (∃ text, token.lexeme = .name text) ∨
      ∃ mark, token.lexeme = .punctuator mark) :
    (source.textOf token.span).toList = token.lexeme.plainText := by
  have shown := tile.isShown
  unfold Token.IsShownBy Token.kind Token.value at shown
  rcases plain with isSentinel | ⟨text, lexeme⟩ | ⟨mark, lexeme⟩
  · cases lexeme : token.lexeme <;> rw [lexeme] at shown isSentinel <;>
      first | exact String.toList_eq_nil_iff.mpr shown | cases isSentinel
  · rw [lexeme] at shown ⊢
    exact congrArg String.toList (Option.some.inj shown).symm
  · rw [lexeme] at shown ⊢
    exact congrArg String.toList (Option.some.inj shown.1).symm

theorem Source.Consists.toList_textOf (consists : source.Consists tokens inner)
    (plain : ∀ lexeme ∈ inner, (∃ text, lexeme = .name text) ∨
      ∃ mark, lexeme = .punctuator mark) :
    ∀ token ∈ significant tokens, (source.textOf token.span).toList =
      token.lexeme.plainText := by
  intro token member
  have tiles := tiles_of_tokenize (tokenize_eq_ok.mpr consists.yields)
  refine (tiles.tile token (List.mem_of_mem_filter member)).toList_textOf ?_
  have said : token.lexeme ∈ lexemes tokens := List.mem_map_of_mem member
  rw [consists.lexemes_eq, List.mem_cons, List.mem_append, List.mem_singleton] at said
  rcases said with isStart | said | isEnd
  · exact .inl (by rw [isStart]; rfl)
  · exact .inr (plain _ said)
  · exact .inl (by rw [isEnd]; rfl)

theorem filter_kind_ne_comment (tokens : List Token) :
    tokens.filter (·.kind != .comment) = significant tokens := by
  refine List.filter_congr fun token _ => ?_
  rw [Token.kind, Token.isSignificant]
  cases token.lexeme <;> rfl

end

/-- The text of a type is parsed as the type again. What is parsed as a type has the text
of all tokens but the comments. -/
theorem parseType_text (source : Source) (options : ParseOptions) :
    (∀ type : TypeReference L, type.IsWellFormed → type.lists ≤ options.maxNestingDepth →
      source.body = type.text → ∃ result, parseType source options = .ok result ∧
        result.map (fun _ => ()) = type.map (fun _ => ()) ∧
          result.innermost.name.text = type.innermost.name.text ∧
          result.nullability = type.nullability) ∧
      ∀ result, parseType source options = .ok result →
      ∃ tokens, tokenize source = .ok tokens ∧
        result.text = String.join
          ((tokens.filter (·.kind != .comment)).map (source.textOf ·.span)) := by
  constructor
  · intro type wellFormed deep body
    obtain ⟨tokens, consists⟩ := TypeReference.exists_consists wellFormed body
    have covers : (⟨1, type.said ++ [.endOfFile]⟩ : Place).Covers type.said
        ⟨1 + type.said.length, [.endOfFile]⟩ :=
      ⟨rfl, rfl⟩
    obtain ⟨tree, derives, same⟩ := TypeReference.exists_derives wellFormed deep covers
    have equal :
        (tree.map (options.note (significant tokens).toArray)).map (fun _ => ()) =
        type.map (fun _ => ()) := by
      rw [TypeReference.map_map]
      exact same
    refine ⟨_, (parseType_eq_ok consists).mpr ⟨tree, derives, rfl⟩, equal, ?_, ?_⟩
    · have names := congrArg (fun type => type.innermost.name.text) equal
      simpa only [TypeReference.text_innermost_map] using names
    · have levels := congrArg TypeReference.nullability equal
      simpa only [TypeReference.nullability_map] using levels
  · intro result parsed
    obtain ⟨tokens, inner, consists⟩ := consists_of_parseType parsed
    obtain ⟨tree, rfl, text⟩ := said_of_parseType consists parsed
    refine ⟨tokens, tokenize_eq_ok.mpr consists.yields, String.toList_inj.mp ?_⟩
    have written :=
      consists.toList_textOf fun _ member => TypeReference.of_mem_said member
    calc result.text.toList
      _ = tree.said.flatMap Lexeme.plainText := by rw [text, TypeReference.toList_text]
      _ = (lexemes tokens).flatMap Lexeme.plainText := by
        simp [consists.lexemes_eq, Lexeme.plainText]
      _ = (significant tokens).flatMap
        fun token => (source.textOf token.span).toList := by
        rw [lexemes, List.flatMap_map]
        exact List.flatMap_congr fun token member => (written token member).symm
      _ = _ := by rw [String.toList_join, filter_kind_ne_comment, List.flatMap_map]

theorem parseType_text_of_list :
    (∃ result, parseType { body := "[A!]" } ⟨false, 1⟩ = .ok result ∧
        result.map (fun _ => ()) = .list (.nonNull (.named ⟨⟨"A", ()⟩, ()⟩) ()) () ∧
          result.innermost.name.text = "A" ∧ result.nullability = [true, false]) ∧
      ∃ result, parseType { body := "[ A#b\n!]" } ⟨false, 1⟩ = .ok result ∧ ∃ tokens,
        tokenize { body := "[ A#b\n!]" } = .ok tokens ∧ result.text = String.join
          ((tokens.filter (·.kind != .comment)).map
            (Source.textOf { body := "[ A#b\n!]" } ·.span)) := by
  constructor
  · have wellFormed :
        TypeReference.IsWellFormed (.list (.nonNull (.named ⟨⟨"A", ()⟩, ()⟩) ()) ()) :=
      ⟨rfl, 'A', [], rfl, .inl rfl, nofun⟩
    exact (parseType_text { body := "[A!]" } ⟨false, 1⟩).1 _ wellFormed
      (Nat.le_refl _) rfl
  · have parsed : parseType { body := "[ A#b\n!]" } ⟨false, 1⟩ = .ok _ := rfl
    exact ⟨_, parsed,
      (parseType_text (L := Unit) { body := "[ A#b\n!]" } ⟨false, 1⟩).2 _ parsed⟩

end GraphQL
