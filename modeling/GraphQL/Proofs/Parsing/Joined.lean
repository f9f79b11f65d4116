import GraphQL.Proofs.Lexing.Joining
import GraphQL.Proofs.Parsing.Alone
import GraphQL.Proofs.Syntax.Maps

/-! Documents joined by a line end.

The definitions of both are derived from the tokens of the joined source: those of the
first in front of other tokens, and those of the second behind other tokens. -/

namespace GraphQL

open ParseOptions (Note)

variable {source source' joined : Source} {tokens tokens' : List Token}
variable {inner inner' : List Lexeme}
variable {options : ParseOptions} {L M : Type}

/-- What stands at so many bytes more -/
def Span.moveRight (count : Nat) (span : Span) : Span :=
  ⟨span.start + count, span.stop + count⟩

def Extent.moveRight (count : Nat) (extent : Extent) : Extent :=
  ⟨extent.first + count, extent.last + count⟩

theorem extentBetween_moveRight (count : Nat) {first after : Nat} (lt : first < after) :
    extentBetween (first + count) (after + count) =
      (extentBetween first after).moveRight count := by
  rw [extentBetween, extentBetween, Extent.moveRight,
    Nat.sub_add_comm (Nat.one_le_of_lt lt)]

/-! ## Definitions in a row -/

def Part.definitions (definitions : List (Definition L)) : List (Part L) :=
  definitions.map fun definition => .child .definition .variable (.definition definition)

theorem Part.definitions_append (first second : List (Definition L)) :
    definitions (first ++ second) = definitions first ++ definitions second :=
      List.map_append

theorem Part.definitions_map (note : L → M) (items : List (Definition L)) :
    definitions (items.map (·.map note)) = (definitions items).map (·.map note) := by
  rw [definitions, definitions, List.map_map, List.map_map]
  rfl

theorem Part.definitions_ne_nil {depth : Nat} {items : List (Definition Extent)}
    {ahead : List Lexeme}
    (spells : Spells extentBetween depth (definitions items) ⟨1, inner ++ ahead⟩
      ⟨1 + inner.length, ahead⟩)
    (nonempty : items ≠ []) : inner ≠ [] := by
  obtain ⟨item, items, rfl⟩ := List.exists_cons_of_ne_nil nonempty
  rintro rfl
  exact absurd (spells.lt rfl) (Nat.lt_irrefl _)

theorem Part.definitions_moveRight (count : Nat) {depth : Nat}
    {items : List (Definition Extent)} {place after : Place} {covered rest : List Lexeme}
    (spells : Spells extentBetween depth (definitions items) place after)
    (covers : place.Covers covered after)
    (clear : foremost rest = after.current ∨
      ∀ last ∈ items.getLast?, last.Admits (foremost rest)) :
    Spells extentBetween depth (definitions (items.map (·.map (Extent.moveRight count))))
      ⟨place.ordinal + count, covered ++ rest⟩ ⟨after.ordinal + count, rest⟩ := by
  have same : ∀ first last, first < last →
      extentBetween (first + count) (last + count) =
        (extentBetween first last).moveRight count :=
    fun _ _ => extentBetween_moveRight count
  have counts : ∀ ordinal, ordinal + 1 + count = ordinal + count + 1 :=
    fun _ => Nat.add_right_comm ..
  rcases List.eq_nil_or_concat items with rfl | ⟨others, last, rfl⟩
  · obtain rfl := Spells.nil_iff.mp spells
    obtain rfl := covers.cancel ((Place.covers_nil _ _).mpr rfl)
    exact .nil
  · rw [List.concat_eq_append, definitions_append, Spells.append_iff] at spells
    obtain ⟨middle, front, final⟩ := spells
    obtain ⟨_, derives, nothing⟩ := Spells.child_iff.mp final
    obtain rfl := Spells.nil_iff.mp nothing
    obtain ⟨before, covers'⟩ := front.covers
    obtain ⟨behind, covers''⟩ := derives.covers
    obtain rfl := covers.cancel (covers'.trans covers'')
    -- Only the last definition has another token behind it than before.
    have goesOn : foremost (behind ++ rest) = middle.current := by
      cases behind with
      | nil => exact absurd derives.lt (by simp [covers''.2])
      | cons => exact covers''.current.symm
    have front' :=
      front.move (Extent.moveRight count)
        (fun first last _ lt _ => same first last lt) covers'
          (fun ordinal _ => counts ordinal) (.inl goesOn)
    have derives' :=
      derives.move (Extent.moveRight count)
        (fun first last _ lt _ => same first last lt) covers''
          (fun ordinal _ => counts ordinal)
            (clear.imp_right fun admits => admits last (by simp))
    rw [List.append_assoc, List.concat_eq_append, definitions_map, definitions_append,
      List.map_append, Spells.append_iff]
    exact ⟨_, front', Spells.child_iff.mpr ⟨_, derives', .nil⟩⟩

theorem Part.spells_definitions_iff {depth : Nat} {place after : Place}
    {items : List (Definition Extent)} :
    Spells extentBetween depth (definitions items) place after ↔
      (Phrase.node extentBetween .variable Node.definition).star depth place items
        after := Spells.children_iff

/-! ## Tokens further to the right -/

/-- Between the tokens that begin and end a source, `inner` is said by tokens that stand
in another source as well, with `count` others and `more` bytes in front of them. -/
def Recur (inner : List Lexeme) (tokens whole : List Token) (count more : Nat) : Prop :=
  ∃ start start' before part part' back back', significant tokens =
    start :: (part ++ back) ∧
    part.map Token.lexeme = inner ∧
    significant whole = start' :: (before ++ (part' ++ back')) ∧
      before.length = count ∧ List.Forall₂ (Token.Matches 0 more) part part'

section

variable {whole : List Token} {count more : Nat}

theorem Recur.note_moveRight (recur : Recur inner tokens whole count more)
    {first after : Nat} (least : 1 ≤ first)
    (lt : first < after) (most : after ≤ 1 + inner.length) :
    options.note (significant whole).toArray
      ((extentBetween first after).moveRight count) =
      (options.note (significant tokens).toArray (extentBetween first after)).map
        (Span.moveRight more) := by
  cases located : options.noLocation with
  | true => simp [ParseOptions.note, located]
  | false =>
      obtain ⟨start, start', before, part, part', back, back', seen, rfl, seen', rfl,
          same⟩ := recur
      obtain ⟨first, rfl⟩ := Nat.exists_eq_add_of_le least
      obtain ⟨after, rfl⟩ :=
        Nat.exists_eq_add_of_le (Nat.le_trans least (Nat.le_of_lt lt))
      rw [List.length_map] at most
      obtain ⟨span, span', note, note', start_eq, stop_eq⟩ :=
        exists_spans located same [start] (start' :: before)
          back back' (Nat.lt_of_add_lt_add_left lt) (Nat.le_of_add_le_add_left most)
      have shift : ∀ index, 1 + index + before.length =
          (start' :: before).length + index := fun index => by
            rw [List.length_cons]
            omega
      have right : Span.moveRight more span = span' := by
        rw [Nat.add_zero] at start_eq stop_eq
        rw [Span.moveRight, ← start_eq, ← stop_eq]
      rw [List.cons_append, ← seen'] at note'
      rw [List.singleton_append, ← seen, List.length_singleton] at note
      rw [← extentBetween_moveRight _ lt, shift, shift, note', note,
        Option.map_some, right]

/-- Definitions in another source are those in their own, with spans further
to the right. -/
theorem Recur.definitions_moveRight
    (recur : Recur inner tokens whole count more) {depth : Nat}
    {items : List (Definition Extent)} {ahead : List Lexeme}
    (spells : Spells extentBetween depth (Part.definitions items) ⟨1, inner ++ ahead⟩
      ⟨1 + inner.length, ahead⟩) :
    (items.map (·.map (Extent.moveRight count))).map
      (·.map (options.note (significant whole).toArray)) =
      (items.map (·.map (options.note (significant tokens).toArray))).map
        (·.map (Option.map (Span.moveRight more))) := by
  have moved : ∀ first after, 1 ≤ first → first < after → after ≤ 1 + inner.length →
      options.note (significant whole).toArray
        ((extentBetween first after).moveRight count) =
        (options.note (significant tokens).toArray (extentBetween first after)).map
          (Span.moveRight more) :=
    fun _ _ => recur.note_moveRight
  have each := spells.map_map_eq moved
  rw [Part.definitions, Part.outlines_children, List.forall_mem_map] at each
  rw [List.map_map, List.map_map]
  exact List.map_congr_left fun definition member =>
    Node.definition.inj (each definition member)

theorem definitions_moveRight_zero (note : L → Note) (items : List (Definition L)) :
    (items.map (·.map note)).map (·.map (Option.map (Span.moveRight 0))) =
      items.map (·.map note) := by
  have unmoved : Option.map (Span.moveRight 0) = id := Option.map_id
  rw [List.map_map]
  refine List.map_congr_left fun definition _ => ?_
  rw [Function.comp_apply, Definition.map_map, unmoved, Function.id_comp]

end

/-! ## Two sources -/

theorem Source.Consists.exists_takes (consists : source.Consists tokens inner) :
    ∃ inside cursor last, (Cursor.start source).Takes inside cursor ∧
      cursor.rest.dropWhile isIgnored = [] ∧
      significant tokens = .startOfFile :: (significant inside ++ [last]) ∧
      lexemes inside = inner := by
  obtain ⟨inside, _, cursor, _, takes, nothing⟩ := consists.yields.exists_takes
  obtain ⟨last, yields, seen, said⟩ := Source.exists_yields_of_takes takes nothing
  obtain ⟨rfl, rfl⟩ := consists.unique ⟨yields, said⟩
  exact ⟨inside, cursor, last, takes, nothing, seen, rfl⟩

/-- A source joined of two others consists of the tokens of both. -/
theorem Source.Consists.exists_joined (consists : source.Consists tokens inner)
    (consists' : source'.Consists tokens' inner') (nonempty : inner ≠ [])
    (nonempty' : inner' ≠ []) (body : joined.body = source.body ++ "\n" ++ source'.body) :
    ∃ whole, joined.Consists whole (inner ++ inner') ∧ Recur inner tokens whole 0 0 ∧
      Recur inner' tokens' whole inner.length (source.size + 1) := by
  obtain ⟨first, _, last, takes, nothing, seen, rfl⟩ := consists.exists_takes
  obtain ⟨second, _, last', takes', nothing', seen', rfl⟩ := consists'.exists_takes
  obtain ⟨first', second', after, taken, rest, same, same'⟩ :=
    Source.exists_takes_joined body takes
      (fun empty => nonempty (by rw [empty]; rfl)) nothing takes'
        (fun empty => nonempty' (by rw [empty]; rfl))
  obtain ⟨final, yields, whole, said⟩ :=
    Source.exists_yields_of_takes taken (rest ▸ nothing')
  have same := significant_matches same
  have same' := significant_matches same'
  rw [lexemes_append, lexemes.eq_1 first', lexemes.eq_1 second',
    lexemes_eq_of_matches same, lexemes_eq_of_matches same'] at said
  rw [significant_append first', List.append_assoc (significant first')] at whole
  refine ⟨_, ⟨yields, said⟩, ⟨_, _, [], _, _, _, _, seen, rfl, whole, rfl, same⟩,
    ⟨_, _, _, _, _, _, _, seen', rfl, whole, ?_, same'⟩⟩
  rw [lexemes, List.length_map, same.length_eq]

def Source.firstKind? (source : Source) : Option TokenKind :=
  match tokenize source with
  | .ok (_ :: tokens) => (tokens.find? Token.isSignificant).map Token.kind
  | _ => none

theorem Source.Consists.firstKind?_eq (consists : source.Consists tokens inner) :
    source.firstKind? = some (foremost (inner ++ [.endOfFile])).kind := by
  have tokenized := tokenize_eq_ok.mpr consists.yields
  obtain ⟨rest, rfl, _⟩ := consists.yields
  have said : (significant rest).map Token.lexeme = inner ++ [.endOfFile] :=
    (List.cons.inj consists.lexemes_eq).2
  rw [Source.firstKind?, tokenized, ← said]
  simp only [← List.head?_filter]
  cases found : significant rest with
  | nil => simp [found] at said
  | cons token others =>
      rw [significant] at found
      rw [found]
      rfl

theorem Definition.isBodyless_map (note : L → M) (definition : Definition L) :
    (definition.map note).isBodyless = definition.isBodyless := by
  cases definition <;>
    simp [Definition.map, Definition.isBodyless, FieldedTypeDefinition.map,
    EnumTypeDefinition.map, InputObjectTypeDefinition.map]

/-- A document may go on with another on the next line, unless that begins with a brace,
and the last definition before it lacks a body. -/
theorem parse_joined {document document' : Document Note}
    (body : joined.body = source.body ++ "\n" ++ source'.body)
    (parsed : parse source options = .ok document)
    (parsed' : parse source' options = .ok document')
    (clear : ∀ last ∈ document.definitions.getLast?, last.isBodyless = true →
      source'.firstKind? ≠ some (.punctuator .leftBrace)) :
    ∃ whole, parse joined options = .ok whole ∧
      whole.definitions = document.definitions ++
      document'.definitions.map
        (·.map (Option.map (Span.moveRight (source.size + 1)))) := by
  obtain ⟨tokens, inner, consists⟩ := consists_of_parse parsed
  obtain ⟨tokens', inner', consists'⟩ := consists_of_parse parsed'
  obtain ⟨trees, ⟨nonempty, spells⟩, equal⟩ :=
    (parse_definitions_iff consists).mp ⟨document, parsed, rfl⟩
  obtain ⟨trees', ⟨nonempty', spells'⟩, equal'⟩ :=
    (parse_definitions_iff consists').mp ⟨document', parsed', rfl⟩
  rw [Phrase.Holds, ← Part.spells_definitions_iff] at spells spells'
  obtain ⟨whole, joins, recur, recur'⟩ := consists.exists_joined consists'
    (Part.definitions_ne_nil spells nonempty)
      (Part.definitions_ne_nil spells' nonempty') body
  have admits :
      ∀ last ∈ trees.getLast?, last.Admits (foremost (inner' ++ [.endOfFile])) := by
    intro last isLast isBodyless next
    refine clear (last.map (options.note (significant tokens).toArray)) ?_
      (by rwa [Definition.isBodyless_map]) ?_
    · rw [equal, List.getLast?_map]
      exact Option.mem_map_of_mem _ isLast
    · rw [consists'.firstKind?_eq, next]
      rfl
  have front := Part.definitions_moveRight 0 spells ⟨rfl, rfl⟩ (.inr admits)
  have back := Part.definitions_moveRight inner.length spells' ⟨rfl, rfl⟩ (.inl rfl)
  rw [Nat.add_right_comm] at back
  refine (parse_definitions_iff joins).mpr ⟨trees.map (·.map (Extent.moveRight 0)) ++
    trees'.map (·.map (Extent.moveRight inner.length)), ⟨by simp [nonempty], ?_⟩, ?_⟩
  · rw [Phrase.Holds, ← Part.spells_definitions_iff, Part.definitions_append,
      Spells.append_iff, List.append_assoc, List.length_append, ← Nat.add_assoc]
    exact ⟨_, front, back⟩
  · rw [List.map_append, recur.definitions_moveRight spells,
      recur'.definitions_moveRight spells', definitions_moveRight_zero, equal, equal']

theorem comment_joined :
    ∃ document document' whole, parse { body := "type A # é" } ⟨false, 3⟩ = .ok document ∧
      parse { body := "\"\"scalar B" } ⟨false, 3⟩ = .ok document' ∧
      parse { body := "type A # é\n\"\"scalar B" } ⟨false, 3⟩ = .ok whole ∧
      whole.definitions = document.definitions ++
        document'.definitions.map (·.map (Option.map (Span.moveRight 12))) := by
  have body : Source.body { body := "type A # é\n\"\"scalar B" } =
      Source.body { body := "type A # é" } ++ "\n" ++
        Source.body { body := "\"\"scalar B" } := by decide
  have size : Source.size { body := "type A # é" } + 1 = 12 := by decide
  have next : Source.firstKind? { body := "\"\"scalar B" } ≠
      some (.punctuator .leftBrace) := by decide
  obtain ⟨document, parsed⟩ :
      ∃ document, parse { body := "type A # é" } ⟨false, 3⟩ = .ok document := ⟨_, rfl⟩
  obtain ⟨document', parsed'⟩ :
      ∃ document, parse { body := "\"\"scalar B" } ⟨false, 3⟩ = .ok document := ⟨_, rfl⟩
  obtain ⟨whole, parses, definitions⟩ :=
    parse_joined body parsed parsed' fun _ _ _ => next
  rw [size] at definitions
  exact ⟨document, document', whole, parsed, parsed', parses, definitions⟩

end GraphQL
