import GraphQL.Proofs.Derivation.Outline
import GraphQL.Proofs.Lexing.Tiling
import GraphQL.Proofs.Reading.Parse

/-! The spans of nodes.

A node has the span of the tokens that it is derived from, so the spans are laid out as
the derivation is: those of children lie within that of the node, one behind another. -/

namespace GraphQL

open ParseOptions (Note)

variable {source : Source} {tokens : List Token} {inner : List Lexeme}
variable {options : ParseOptions}

/-! ## Tokens in order -/

/-- The tokens that the grammar sees, as they stand in the source -/
structure Source.Sees (source : Source) (seen : List Token) : Prop where
  ordered : seen.Pairwise fun token next => token.stop ≤ next.start.offset
  start_le : ∀ token ∈ seen, token.start.offset ≤ token.stop
  stop_le : ∀ token ∈ seen, token.stop ≤ source.size
  isBoundary : ∀ token ∈ seen, source.IsBoundary token.start.offset ∧
    source.IsBoundary token.stop

theorem Source.sees_of_tokenize (tokenized : tokenize source = .ok tokens) :
    source.Sees (significant tokens) := by
  have tiles := tiles_of_tokenize tokenized
  have within : ∀ token ∈ significant tokens, token ∈ tokens :=
    fun token => List.mem_of_mem_filter
  exact ⟨tiles.ordered.sublist List.filter_sublist, fun token member =>
    (tiles.tile token (within token member)).start_le,
    fun token member => (tiles.tile token (within token member)).stop_le,
    fun token member => tiles.isBoundary token (within token member)⟩

namespace Source.Sees

variable {seen : List Token} {index index' : Nat} {token token' : Token}

theorem stop_le_start (sees : source.Sees seen) (found : seen[index]? = some token)
    (found' : seen[index']? = some token') (lt : index < index') :
    token.stop ≤ token'.start.offset := by
  obtain ⟨bound, rfl⟩ := List.getElem?_eq_some_iff.mp found
  obtain ⟨bound', rfl⟩ := List.getElem?_eq_some_iff.mp found'
  exact List.pairwise_iff_getElem.mp sees.ordered _ _ bound bound' lt

theorem start_le_start (sees : source.Sees seen) (found : seen[index]? = some token)
    (found' : seen[index']? = some token') (le : index ≤ index') :
    token.start.offset ≤ token'.start.offset := by
  rcases Nat.eq_or_lt_of_le le with rfl | lt
  · rw [found] at found'
    cases found'
    exact Nat.le_refl _
  · exact Nat.le_trans (sees.start_le token (List.mem_of_getElem? found))
      (sees.stop_le_start found found' lt)

theorem stop_le_stop (sees : source.Sees seen) (found : seen[index]? = some token)
    (found' : seen[index']? = some token') (le : index ≤ index') :
    token.stop ≤ token'.stop := by
  rcases Nat.eq_or_lt_of_le le with rfl | lt
  · rw [found] at found'
    cases found'
    exact Nat.le_refl _
  · exact Nat.le_trans (sees.stop_le_start found found' lt)
      (sees.start_le token' (List.mem_of_getElem? found'))

end Source.Sees

theorem Source.Consists.start_lt (consists : source.Consists tokens inner) {index : Nat}
    {token : Token}
    (found : (significant tokens)[index]? = some token) (positive : 0 < index)
    (le : index ≤ inner.length) :
    token.start.offset < token.stop := by
  have tile := (tiles_of_tokenize (tokenize_eq_ok.mpr consists.yields)).tile
  refine (tile token (List.mem_of_mem_filter (List.mem_of_getElem? found))).start_lt ?_
  obtain ⟨index, rfl⟩ := Nat.exists_eq_add_of_lt positive
  have notEnd : token.lexeme ≠ .endOfFile := by
    have said : (lexemes tokens)[0 + index + 1]? = some token.lexeme := by
      rw [lexemes, List.getElem?_map, found, Option.map_some]
    rw [consists.lexemes_eq, List.getElem?_cons_succ,
      List.getElem?_append_left (by omega)] at said
    intro equal
    exact consists.inside.unended (equal ▸ List.mem_of_getElem? said)
  have notStart : token.lexeme ≠ .startOfFile := by
    obtain ⟨rest, rfl, yields⟩ := consists.yields
    have behind : (significant rest)[0 + index]? = some token := found
    exact yields.notStart token (List.mem_of_mem_filter (List.mem_of_getElem? behind))
  cases lexeme : token.lexeme <;> simp_all [Lexeme.isSentinel]

/-! ## The spans of nodes -/

/-- What a tree says of a node, from the numbers of its first token and of
the one after its last -/
def ParseOptions.noteBetween (options : ParseOptions) (seen : List Token)
    (first after : Nat) : Note :=
  options.note seen.toArray (extentBetween first after)

def Outline.location {L : Type} : Outline L → L
  | .mk _ node _ => node.location

/-- The node has the span of the tokens that it is derived from, and so have
those below it. -/
structure Outline.Spans (source : Source) (options : ParseOptions) (seen : List Token)
    (outline : Outline Note) (span : Span) : Prop where
  location : outline.location = some span
  /-- The node is derived from some of the tokens: the span is that from the first of them
  to the last. -/
  exact : ∃ depth before covered behind, seen = before ++ covered ++ behind ∧
    (covered.head?.map (·.start.offset)) = some span.start ∧
      (covered.getLast?.map Token.stop) = some span.stop ∧
        outline.Derived (options.noteBetween seen) depth
          ⟨before.length, (covered ++ behind).map Token.lexeme⟩
          ⟨before.length + covered.length, behind.map Token.lexeme⟩
  start_lt : span.start < span.stop
  stop_le : span.stop ≤ source.size
  isBoundary : source.IsBoundary span.start ∧ source.IsBoundary span.stop
  inside : ∀ child ∈ outline.children, ∃ span', child.location = some span' ∧
    span.start ≤ span'.start ∧ span'.stop ≤ span.stop
  ordered : outline.children.Pairwise fun child next => ∃ span' span'',
    child.location = some span' ∧ next.location = some span'' ∧ span'.stop ≤ span''.start

theorem Outline.Derived.location_eq {noteOf : Nat → Nat → Note} {depth : Nat}
    {outline : Outline Note}
    {place after : Place} (derived : outline.Derived noteOf depth place after) :
    outline.location = noteOf place.ordinal after.ordinal := by
  obtain ⟨_, _, _, rfl, _, _, _, location⟩ := derived
  exact location

section

variable {seen : List Token} {first after first' after' : Nat}

theorem ParseOptions.noteBetween_eq (located : options.noLocation = false)
    (lt : first < after) (le : after ≤ seen.length) :
    ∃ token last, seen[first]? = some token ∧ seen[after - 1]? = some last ∧
      options.noteBetween seen first after = some ⟨token.start.offset, last.stop⟩ := by
  have found : seen[first]? = some seen[first] := List.getElem?_eq_getElem (by omega)
  have found' : seen[after - 1]? = some seen[after - 1] :=
    List.getElem?_eq_getElem (by omega)
  refine ⟨_, _, found, found', ?_⟩
  simp only [noteBetween, note, located, extentBetween, List.getElem?_toArray,
    found, found']
  rfl

theorem Source.Sees.inside (sees : source.Sees seen)
    (located : options.noLocation = false)
    (least : first ≤ first') (lt : first' < after') (most : after' ≤ after)
    (le : after ≤ seen.length) :
    ∃ span span', options.noteBetween seen first after = some span ∧
      options.noteBetween seen first' after' = some span' ∧
        span.start ≤ span'.start ∧ span'.stop ≤ span.stop := by
  obtain ⟨token, last, found, foundLast, note⟩ :=
    ParseOptions.noteBetween_eq located (by omega : first < after) le
  obtain ⟨token', last', found', foundLast', note'⟩ :=
    ParseOptions.noteBetween_eq located lt (by omega : after' ≤ seen.length)
  exact ⟨_, _, note, note', sees.start_le_start found found' least,
    sees.stop_le_stop foundLast' foundLast (by omega)⟩

theorem Source.Sees.apart (sees : source.Sees seen) (located : options.noLocation = false)
    (lt : first < after) (order : after ≤ first') (lt' : first' < after')
    (le : after' ≤ seen.length) :
    ∃ span span', options.noteBetween seen first after = some span ∧
      options.noteBetween seen first' after' = some span' ∧ span.stop ≤ span'.start := by
  obtain ⟨token, last, found, foundLast, note⟩ :=
    ParseOptions.noteBetween_eq located lt (by omega : after ≤ seen.length)
  obtain ⟨token', last', found', foundLast', note'⟩ :=
    ParseOptions.noteBetween_eq located lt' le
  exact ⟨_, _, note, note', sees.stop_le_start foundLast found' (by omega)⟩

end

/-! ## All nodes of a tree -/

theorem Source.Consists.begins (consists : source.Consists tokens inner) :
    (⟨0, lexemes tokens⟩ : Place).Reaches ⟨1, inner ++ [.endOfFile]⟩ :=
  ⟨[.startOfFile], consists.lexemes_eq, rfl⟩

theorem Place.reaches_end (inner : List Lexeme) :
    (⟨1 + inner.length, [.endOfFile]⟩ : Place).Reaches ⟨inner.length + 2, []⟩ :=
  ⟨[.endOfFile], rfl, by simp [Nat.add_comm 1]⟩

/-- The tokens from one place to another are some of all the tokens, and a tree says of
them where they begin and end. -/
theorem exists_part {place after : Place} {count : Nat}
    (located : options.noLocation = false)
    (before : (⟨0, lexemes tokens⟩ : Place).Reaches place) (reaches : place.Reaches after)
    (behind : after.Reaches ⟨count, []⟩) (lt : place.ordinal < after.ordinal) :
    ∃ front part back first last, significant tokens = front ++ part ++ back ∧
      place = ⟨front.length, (part ++ back).map Token.lexeme⟩ ∧
        after = ⟨front.length + part.length, back.map Token.lexeme⟩ ∧
          part.head? = some first ∧ part.getLast? = some last ∧
            options.noteBetween (significant tokens) place.ordinal after.ordinal =
              some ⟨first.start.offset, last.stop⟩ := by
  obtain ⟨ordinal, ahead⟩ := place
  obtain ⟨ordinal', ahead'⟩ := after
  obtain ⟨passed, split, length⟩ := before
  obtain ⟨covered, split'', length'⟩ := reaches
  obtain ⟨_, split', _⟩ := behind
  simp only at split length split' split'' length' lt
  rw [List.append_nil] at split'
  subst split'
  rw [split'', ← List.append_assoc, lexemes, List.map_eq_append_iff] at split
  obtain ⟨both, back, whole, both_eq, rfl⟩ := split
  obtain ⟨front, part, rfl, rfl, rfl⟩ := List.map_eq_append_iff.mp both_eq
  rw [List.length_map, Nat.zero_add] at length
  rw [List.length_map] at length'
  subst length length' split''
  have nonempty : 0 < part.length := Nat.lt_add_right_iff_pos.mp lt
  have le : front.length + part.length ≤ (significant tokens).length := by
    rw [whole, List.length_append, List.length_append]
    exact Nat.le_add_right ..
  obtain ⟨first, last, found, foundLast, note⟩ :=
    ParseOptions.noteBetween_eq located lt le
  refine ⟨front, part, back, first, last, whole, by
    rw [List.map_append], rfl, ?_, ?_, note⟩
  · rw [whole, List.append_assoc,
      List.getElem?_append_right (Nat.le_refl _), Nat.sub_self,
      List.getElem?_append_left nonempty] at found
    rw [List.head?_eq_getElem?, found]
  · rw [whole, List.getElem?_append_left (by simp; omega), Nat.add_sub_assoc nonempty,
      List.getElem?_append_right (Nat.le_add_right ..), Nat.add_sub_cancel_left]
        at foundLast
    rw [List.getLast?_eq_getElem?, foundLast]

theorem Source.Consists.spans (consists : source.Consists tokens inner)
    (located : options.noLocation = false)
    {depth : Nat} {outline : Outline Note} {place after : Place}
    (derived : outline.Derived
      (options.noteBetween (significant tokens)) depth place after)
    (before : (⟨0, lexemes tokens⟩ : Place).Reaches place)
    (behind : after.Reaches ⟨inner.length + 2, []⟩)
    (strict : ∀ span, outline.location = some span → span.start < span.stop) :
    ∃ span, outline.Spans source options (significant tokens) span := by
  have sees := Source.sees_of_tokenize (tokenize_eq_ok.mpr consists.yields)
  have lt := derived.lt
  have le : after.ordinal ≤ (significant tokens).length := by
    rw [consists.length_eq]
    exact behind.le
  obtain ⟨front, part, back, token, last, whole, rfl, rfl, first_eq, last_eq, note⟩ :=
    exists_part located before derived.covers behind lt
  have location := derived.location_eq.trans note
  have member : ∀ other ∈ part, other ∈ significant tokens := by
    rw [whole]
    simp +contextual
  have found := member token (List.mem_of_head? first_eq)
  have foundLast := member last (List.mem_of_getLast? last_eq)
  refine ⟨_, location, ?_, strict _ location, ?_, ?_, ?_, ?_⟩
  · exact ⟨depth, front, part, back, whole, by
      rw [first_eq]; rfl, by rw [last_eq]; rfl, derived⟩
  · exact sees.stop_le last foundLast
  · exact ⟨(sees.isBoundary token found).1, (sees.isBoundary last foundLast).2⟩
  · intro child member
    obtain ⟨first', last', before', behind', derived'⟩ :=
      derived.laid.derived child member
    obtain ⟨span, span', equal, equal', inside⟩ :=
      sees.inside located before'.le derived'.lt behind'.le le
    rw [note] at equal
    cases equal
    exact ⟨span', derived'.location_eq.trans equal', inside⟩
  · refine derived.laid.ordered.imp ?_
    rintro child next ⟨first, last, first', last', derived, derived', order, behind'⟩
    obtain ⟨span, span', equal, equal', apart⟩ :=
      sees.apart located derived.lt order derived'.lt
        (Nat.le_trans behind'.le le)
    exact ⟨span, span', derived.location_eq.trans equal,
      derived'.location_eq.trans equal', apart⟩

theorem Source.Consists.spans_within (consists : source.Consists tokens inner)
    (located : options.noLocation = false) {depth : Nat} {outline node : Outline Note}
    {place after : Place}
    (derived : outline.Derived
      (options.noteBetween (significant tokens)) depth place after)
    (before : (⟨1, inner ++ [.endOfFile]⟩ : Place).Reaches place)
    (behind : after.Reaches ⟨1 + inner.length, [.endOfFile]⟩)
    (within : node.Within outline) :
    ∃ span, node.Spans source options (significant tokens) span := by
  obtain ⟨place', after', before', behind', derived'⟩ := derived.within within
  have before := before.trans before'
  have behind := behind'.trans behind
  have sees := Source.sees_of_tokenize (tokenize_eq_ok.mpr consists.yields)
  refine consists.spans located derived' (consists.begins.trans before)
    (behind.trans (Place.reaches_end inner)) fun span location => ?_
  have least : 1 ≤ place'.ordinal := before.le
  have most : after'.ordinal ≤ 1 + inner.length := behind.le
  have lt := derived'.lt
  obtain ⟨token, last, found, foundLast, note⟩ :=
    ParseOptions.noteBetween_eq located lt (by rw [consists.length_eq]; omega)
  rw [derived'.location_eq, note] at location
  cases location
  exact Nat.lt_of_lt_of_le (consists.start_lt found least (by omega))
    (sees.stop_le_stop found foundLast (by omega))

/-- Of what is parsed, every node has a span. -/
def Outline.Spanned (source : Source) (options : ParseOptions)
    (outline : Outline Note) : Prop :=
  ∃ tokens, tokenize source = .ok tokens ∧ ∀ node : Outline Note, node.Within outline →
    ∃ span, node.Spans source options (significant tokens) span

theorem spanned_of_parseValue (located : options.noLocation = false) {value : Value Note}
    (parsed : parseValue source options = .ok value) :
    (value.outline .value).Spanned source options := by
  obtain ⟨tokens, inner, consists⟩ := consists_of_parseValue parsed
  obtain ⟨value, derives, rfl⟩ := (parseValue_eq_ok consists).mp parsed
  have derived :
      Outline.Derived (options.noteBetween (significant tokens)) options.maxNestingDepth
      ((value.map (options.note (significant tokens).toArray)).outline .value)
      ⟨1, inner ++ [.endOfFile]⟩ ⟨1 + inner.length, [.endOfFile]⟩ :=
    ⟨.value, _, _, Value.outline_eq .., Node.Derives.map _ derives⟩
  exact ⟨tokens, tokenize_eq_ok.mpr consists.yields, fun _ =>
    consists.spans_within located derived (.refl _) (.refl _)⟩

theorem spanned_of_parseType (located : options.noLocation = false)
    {type : TypeReference Note}
    (parsed : parseType source options = .ok type) :
    (type.outline .type).Spanned source options := by
  obtain ⟨tokens, inner, consists⟩ := consists_of_parseType parsed
  obtain ⟨type, derives, rfl⟩ := (parseType_eq_ok consists).mp parsed
  have derived :
      Outline.Derived (options.noteBetween (significant tokens)) options.maxNestingDepth
      ((type.map (options.note (significant tokens).toArray)).outline .type)
      ⟨1, inner ++ [.endOfFile]⟩ ⟨1 + inner.length, [.endOfFile]⟩ :=
    ⟨.type, _, _, TypeReference.outline_eq .., Node.Derives.map _ derives⟩
  exact ⟨tokens, tokenize_eq_ok.mpr consists.yields, fun _ =>
    consists.spans_within located derived (.refl _) (.refl _)⟩

theorem Document.laid {L : Type} {noteOf : Nat → Nat → L} {depth : Nat}
    {document : Document L}
    (derives : (Node.document document).Derives noteOf depth .variable
      ⟨0, .startOfFile :: (inner ++ [.endOfFile])⟩ ⟨inner.length + 2, []⟩) :
    Outline.Laid noteOf depth document.outline.children ⟨1, inner ++ [.endOfFile]⟩
      ⟨1 + inner.length, [.endOfFile]⟩ ∧ document.outline.children ≠ [] := by
  rw [Node.derives_iff rfl] at derives
  simp only [Node.parts, Document.parts, List.cons_append, Spells.token_iff,
    Spelling.Fits, Spells.provided_iff, Spells.append_iff, Spells.nil_iff] at derives
  obtain ⟨⟨_, middle, covers, rfl, nonempty, place, definitions, _, _, covers', rfl, rfl⟩,
      _⟩ := derives
  obtain ⟨_, rfl⟩ := Place.covers_cons.mp covers
  have last : place = ⟨1 + inner.length, [.endOfFile]⟩ := by
    obtain ⟨ordinal, ahead⟩ := place
    obtain ⟨split, count⟩ := covers'
    simp only [List.append_nil, List.length_singleton] at split count
    rw [split, Place.mk.injEq]
    exact ⟨by omega, rfl⟩
  have laid := definitions.laid
  rw [Part.outlines_children, last] at laid
  refine ⟨?_, ?_⟩
  · have children :
        document.outline.children = document.definitions.map Definition.outline := rfl
    simpa only [children, Definition.outline_eq] using laid
  · simpa [Document.outline, Outline.children] using nonempty

theorem Source.Consists.noteBetween_eq (consists : source.Consists tokens inner)
    (located : options.noLocation = false) :
    options.noteBetween (significant tokens) 0 (inner.length + 2) =
      some ⟨0, source.size⟩ := by
  obtain ⟨token, last, found, foundLast, note⟩ := ParseOptions.noteBetween_eq located
    (by omega : 0 < inner.length + 2) (by rw [consists.length_eq])
  have start : token.start.offset = 0 := by
    obtain ⟨rest, rfl, _⟩ := consists.yields
    cases found
    rfl
  have stop : last.stop = source.size := by
    have tiles := tiles_of_tokenize (tokenize_eq_ok.mpr consists.yields)
    obtain ⟨rest, final, rfl, atEnd, _⟩ := consists.yields.last
    have seen : significant [final] = [final] := by
      simp [significant, Token.isSignificant, atEnd, Lexeme.isSignificant,
        Lexeme.isComment]
    have length := consists.length_eq
    rw [significant_append, seen, List.length_append, List.length_singleton] at length
    rw [significant_append, seen, ← length, Nat.add_sub_cancel,
      List.getElem?_append_right (Nat.le_refl _), Nat.sub_self] at foundLast
    cases foundLast
    exact tiles.stop_eq
  rw [note, start, stop]

theorem spanned_of_parse (located : options.noLocation = false) {document : Document Note}
    (parsed : parse source options = .ok document) :
    document.location = some ⟨0, source.size⟩ ∧
      document.outline.Spanned source options := by
  obtain ⟨tokens, inner, consists⟩ := consists_of_parse parsed
  obtain ⟨tree, derives, rfl⟩ := (parse_eq_ok consists).mp parsed
  have derives := derives.map (options.note (significant tokens).toArray)
  have derived :
      Outline.Derived (options.noteBetween (significant tokens)) options.maxNestingDepth
      (tree.map (options.note (significant tokens).toArray)).outline
      ⟨0, lexemes tokens⟩ ⟨inner.length + 2, []⟩ :=
        ⟨.document, .variable, _, rfl, derives⟩
  have location := derived.location_eq
  change _ = options.noteBetween _ 0 (inner.length + 2) at location
  rw [consists.noteBetween_eq located] at location
  refine ⟨location, tokens, tokenize_eq_ok.mpr consists.yields, fun node within => ?_⟩
  rw [consists.lexemes_eq] at derives
  obtain ⟨laid, nonempty⟩ := Document.laid derives
  cases within with
  | deeper member within =>
      obtain ⟨first, last, before, behind, derived'⟩ := laid.derived _ member
      exact consists.spans_within located derived' before behind within
  | refl =>
      refine consists.spans located derived (.refl _) (.refl _) fun span equal => ?_
      -- A document takes a byte, since a definition does.
      obtain ⟨child, rest, children⟩ := List.exists_cons_of_ne_nil nonempty
      obtain ⟨first, last, before, behind, derived'⟩ :=
        laid.derived child (children ▸ List.mem_cons_self ..)
      obtain ⟨inside, spans⟩ :=
        consists.spans_within located derived' before behind (.refl child)
      have lt := spans.start_lt
      have le := spans.stop_le
      cases location.symm.trans equal
      exact Nat.lt_of_le_of_lt (Nat.zero_le _) (Nat.lt_of_lt_of_le lt le)

/-- Every node of what is parsed has the span of its tokens. Spans of children lie within
that of the node, each behind the one before. -/
theorem parse_spanned (located : options.noLocation = false) :
    (∀ document, parse source options = .ok document →
      document.location = some ⟨0, source.size⟩ ∧
      document.outline.Spanned source options) ∧
    (∀ value, parseValue source options = .ok value →
      (value.outline .value).Spanned source options) ∧
    ∀ type, parseType source options = .ok type →
    (type.outline .type).Spanned source options :=
  ⟨fun _ => spanned_of_parse located, fun _ => spanned_of_parseValue located,
    fun _ => spanned_of_parseType located⟩

theorem query_spanned :
    ∃ document, parse { body := "\x7ba \x7d" } ⟨false, 3⟩ = .ok document ∧
      document.location = some ⟨0, 4⟩ ∧
        document.outline.Spanned { body := "\x7ba \x7d" } ⟨false, 3⟩ := by
  have parsed : parse { body := "\x7ba \x7d" } ⟨false, 3⟩ = .ok _ := rfl
  have size : Source.size { body := "\x7ba \x7d" } = 4 := by decide
  obtain ⟨location, spanned⟩ := (parse_spanned rfl).1 _ parsed
  rw [size] at location
  exact ⟨_, parsed, location, spanned⟩

end GraphQL
