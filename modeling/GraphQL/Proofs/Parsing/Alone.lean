import GraphQL.Proofs.Derivation.Notes
import GraphQL.Proofs.Lexing.Cutting
import GraphQL.Proofs.Parsing.Spans

/-! Nodes that stand alone.

The text of a node is read as the tokens that the node is derived from, so a source with
that text alone is parsed as the node. -/

namespace GraphQL

open ParseOptions (Note)

variable {source source' : Source} {tokens : List Token} {inner : List Lexeme}
variable {options : ParseOptions}

/-- What stands at so many bytes less. Nothing does that begins in front of them. -/
def Span.moveLeft (count : Nat) (span : Span) : Option Span :=
  if count ≤ span.start then some ⟨span.start - count, span.stop - count⟩ else none

def Extent.moveLeft (count : Nat) (extent : Extent) : Extent :=
  ⟨extent.first - count, extent.last - count⟩

theorem extentBetween_moveLeft (count first after : Nat) :
    extentBetween (first - count) (after - count) =
      (extentBetween first after).moveLeft count := by
  rw [extentBetween, extentBetween, Extent.moveLeft, Nat.sub_right_comm]

/-! ## The tokens of a node -/

section

variable {front part part' : List Token} {base base' : Nat}

theorem exists_spans (located : options.noLocation = false)
    (same : List.Forall₂ (Token.Matches base base') part part')
    (front front' back back' : List Token)
    {first after : Nat} (lt : first < after) (most : after ≤ part.length) :
    ∃ span span', options.note (front ++ (part ++ back)).toArray
        (extentBetween (front.length + first) (front.length + after)) = some span ∧
      options.note (front' ++ (part' ++ back')).toArray
        (extentBetween (front'.length + first) (front'.length + after)) = some span' ∧
      span'.start + base = span.start + base' ∧
      span'.stop + base = span.stop + base' := by
  obtain ⟨token, token', found, found', begins⟩ :=
    exists_matching same front front' back back' (Nat.lt_of_lt_of_le lt most)
  obtain ⟨last, last', foundLast, foundLast', ends⟩ :=
    exists_matching same front front' back back' (by omega : after - 1 < part.length)
  rw [← Nat.add_sub_assoc (Nat.one_le_of_lt lt)] at foundLast foundLast'
  refine ⟨⟨token.start.offset, last.stop⟩, ⟨token'.start.offset, last'.stop⟩, ?_, ?_,
    begins.start_eq, ends.stop_eq⟩
  · simp only [ParseOptions.note, located, extentBetween, List.getElem?_toArray,
      found, foundLast]
    rfl
  · simp only [ParseOptions.note, located, extentBetween, List.getElem?_toArray,
      found', foundLast']
    rfl

theorem note_moveLeft (located : options.noLocation = false) (back back' : List Token)
    (start : Token)
    (same : List.Forall₂ (Token.Matches base 0) part part') (begun : 0 < front.length)
    {first after : Nat}
    (least : front.length ≤ first) (lt : first < after)
    (most : after ≤ front.length + part.length) :
    options.note (start :: (part' ++ back')).toArray
        ((extentBetween first after).moveLeft (front.length - 1)) =
      (options.note (front ++ part ++ back).toArray (extentBetween first after)).bind
        (Span.moveLeft base) := by
  obtain ⟨first, rfl⟩ := Nat.exists_eq_add_of_le least
  obtain ⟨after, rfl⟩ := Nat.exists_eq_add_of_le (Nat.le_trans least (Nat.le_of_lt lt))
  obtain ⟨span, span', note, note', start_eq, stop_eq⟩ :=
    exists_spans located same front [start] back back'
      (Nat.lt_of_add_lt_add_left lt) (Nat.le_of_add_le_add_left most)
  have shift : ∀ index, front.length + index - (front.length - 1) =
      [start].length + index := fun index => by
        rw [List.length_singleton]
        omega
  have left : Span.moveLeft base span = some span' := by
    rw [Nat.add_zero] at start_eq stop_eq
    rw [Span.moveLeft, if_pos (by omega), Nat.sub_eq_of_eq_add start_eq.symm,
      Nat.sub_eq_of_eq_add stop_eq.symm]
  rw [← extentBetween_moveLeft, shift, shift, List.append_assoc, note,
    Option.bind_some, left]
  exact note'

end

/-! ## Nodes of a source -/

/-- The source is nothing but the text of the node: what it consists of is what the node
is derived from, with `count` tokens less in front, and `node'` is what comes of it. -/
def Source.Alone (source : Source) (options : ParseOptions) (depth : Nat)
    (constness : Constness) (node : Node Extent) (node' : Node Note) : Prop :=
  ∃ tokens inner count, source.Consists tokens inner ∧
    (node.map (Extent.moveLeft count)).Derives extentBetween depth constness
      ⟨1, inner ++ [.endOfFile]⟩
      ⟨1 + inner.length, [.endOfFile]⟩ ∧
    (node.map (Extent.moveLeft count)).map (options.note (significant tokens).toArray) =
      node'

theorem Source.Consists.exists_alone (consists : source.Consists tokens inner)
    {front part back : List Token}
    {first last : Token} (whole : significant tokens = front ++ part ++ back)
    (begun : 0 < front.length)
    (further : back ≠ []) (first_eq : part.head? = some first)
    (last_eq : part.getLast? = some last)
    (body : source'.body = source.textOf ⟨first.start.offset, last.stop⟩) :
    ∃ tokens' part' last', source'.Consists tokens' (part.map Token.lexeme) ∧
      significant tokens' = .startOfFile :: (part' ++ [last']) ∧
        List.Forall₂ (Token.Matches first.start.offset 0) part part' := by
  obtain ⟨_, text, _, holds, again⟩ :=
    consists.yields.cut (whole.trans (List.append_assoc ..))
      (List.ne_nil_of_length_pos begun) further first_eq last_eq
  have chars : source'.chars = text ++ [] := by
    rw [Source.chars, body, holds.textOf_eq, String.toList_ofList, List.append_nil]
  obtain ⟨tokens', cursor, takes, nothing, same⟩ := again source' [] chars breaks_nil
  obtain ⟨last', yields, seen, said⟩ :=
    Source.exists_yields_of_takes takes (by rw [nothing]; rfl)
  have same_said : lexemes tokens' = part.map Token.lexeme := lexemes_eq_of_matches same
  rw [same_said] at said
  exact ⟨_, _, last', ⟨yields, said⟩, seen, same⟩

/-- A node of a source has a span, whose text alone is that node. -/
theorem Source.Consists.alone (consists : source.Consists tokens inner)
    (located : options.noLocation = false)
    {node : Node Extent} {depth : Nat} {constness : Constness} {place after : Place}
    (derives : node.Derives extentBetween depth constness place after)
    (before : (⟨1, inner ++ [.endOfFile]⟩ : Place).Reaches place)
    (behind : after.Reaches ⟨1 + inner.length, [.endOfFile]⟩) :
    ∃ span, (node.map (options.note (significant tokens).toArray)).location = some span ∧
      ∀ source' : Source, source'.body = source.textOf span →
      source'.Alone options depth constness node
        ((node.map (options.note (significant tokens).toArray)).map fun note : Note =>
          note.bind (Span.moveLeft span.start)) := by
  have begun : 0 < place.ordinal := before.le
  obtain ⟨covered, covers⟩ : place.Reaches after := derives.covers
  obtain ⟨front, part, back, first, last, whole, rfl, rfl, first_eq, last_eq, note⟩ :=
    exists_part located (consists.begins.trans before) ⟨covered, covers⟩
      (behind.trans (Place.reaches_end inner)) derives.lt
  refine ⟨⟨first.start.offset, last.stop⟩, ?_, fun source' body => ?_⟩
  · obtain ⟨_, _, _, location⟩ := derives
    rw [Node.location_map, location]
    exact note
  · have further : back ≠ [] := by
      rintro rfl
      obtain ⟨_, split, _⟩ := behind
      simp at split
    obtain ⟨tokens', part', last', consists', seen, same⟩ :=
      consists.exists_alone whole begun further first_eq last_eq body
    have covered_eq : covered = part.map Token.lexeme := by
      have split := covers.1
      rw [List.map_append] at split
      exact (List.append_cancel_right split).symm
    have moved :
        (node.map (Extent.moveLeft (front.length - 1))).Derives extentBetween
          depth constness
        ⟨front.length - (front.length - 1), covered ++ [.endOfFile]⟩
        ⟨front.length + part.length - (front.length - 1), [.endOfFile]⟩ :=
      derives.move _ (fun _ _ _ _ _ => extentBetween_moveLeft ..) covers
        (fun _ least => Nat.sub_add_comm (Nat.le_trans (Nat.sub_le ..) least))
        (.inr (node.admits_of_ne (by simp [foremost])))
    have ordinal : front.length - (front.length - 1) = 1 := Nat.sub_sub_self begun
    have ordinal' : front.length + part.length - (front.length - 1) =
        1 + (part.map Token.lexeme).length := by
      rw [List.length_map]
      omega
    rw [ordinal, ordinal', covered_eq] at moved
    refine ⟨tokens', _, front.length - 1, consists', moved, ?_⟩
    rw [seen, whole]
    exact derives.map_map_eq fun _ _ =>
      note_moveLeft located back [last'] .startOfFile same begun

theorem Source.Consists.alone_within (consists : source.Consists tokens inner)
    (located : options.noLocation = false) {document : Document Extent}
    (derives : (Node.document document).Derives extentBetween
      options.maxNestingDepth .variable
      ⟨0, lexemes tokens⟩ ⟨inner.length + 2, []⟩) {outline : Outline Note}
    (within : outline.Within
      (document.map (options.note (significant tokens).toArray)).outline)
    (notDocument : ∀ document, outline.node ≠ .document document) :
    ∃ node constness, outline.node =
      node.map (options.note (significant tokens).toArray) ∧
      ∃ span, outline.node.location = some span ∧
      ∀ source' : Source, source'.body = source.textOf span →
        source'.Alone options options.maxNestingDepth constness node
          (outline.node.map fun note : Note => note.bind (Span.moveLeft span.start)) := by
  obtain ⟨role, node, rfl, within'⟩ : ∃ role node,
      outline = Node.outline role (node.map (options.note (significant tokens).toArray)) ∧
        (Node.outline role node).Within (Node.outline .document (.document document)) :=
          within.of_map
  rw [consists.lexemes_eq] at derives
  obtain ⟨laid, _⟩ := Document.laid derives
  cases within' with
  | refl => exact (notDocument _ rfl).elim
  | deeper member within =>
      obtain ⟨_, _, before, behind, derived⟩ := laid.derived _ member
      obtain ⟨_, _, before', behind', _, constness, _, equal, derives⟩ :=
        derived.within within
      cases equal
      exact ⟨node, constness, rfl,
        consists.alone located derives (before.trans before') (behind'.trans behind)⟩

/-! ## Parsing nodes alone -/

namespace Source.Alone

variable {constness : Constness} {node : Node Extent}

theorem parseValue_eq {value : Value Note} (isValue : ∃ tree, node = .value tree)
    (alone : source.Alone options options.maxNestingDepth constness node (.value value)) :
    parseValue source options = .ok value := by
  obtain ⟨tree, rfl⟩ := isValue
  obtain ⟨tokens, inner, count, consists, derives, equal⟩ := alone
  injection equal with equal
  exact (parseValue_eq_ok consists).mpr ⟨_, derives.relax, equal.symm⟩

theorem parseType_eq {type : TypeReference Note} (isType : ∃ tree, node = .type tree)
    (alone : source.Alone options options.maxNestingDepth constness node (.type type)) :
    parseType source options = .ok type := by
  obtain ⟨tree, rfl⟩ := isType
  obtain ⟨tokens, inner, count, consists, derives, equal⟩ := alone
  injection equal with equal
  exact (parseType_eq_ok consists).mpr ⟨_, derives, equal.symm⟩

theorem parse_eq {definition : Definition Note}
    (isDefinition : ∃ tree, node = .definition tree)
    (alone : source.Alone options options.maxNestingDepth constness node
      (.definition definition)) :
    ∃ document, parse source options = .ok document ∧
      document.definitions = [definition] := by
  obtain ⟨tree, rfl⟩ := isDefinition
  obtain ⟨tokens, inner, count, consists, derives, equal⟩ := alone
  injection equal with equal
  rw [← equal]
  exact (parse_definitions_iff consists).mpr
    ⟨[tree.map (Extent.moveLeft count)], ⟨List.cons_ne_nil _ _, _, derives, rfl⟩, rfl⟩

end Source.Alone

/-- The text of a value, a type or a definition is parsed as that, wherever
it was in a document. -/
theorem parse_textOf (located : options.noLocation = false) {document : Document Note}
    (parsed : parse source options = .ok document) {outline : Outline Note}
    (within : outline.Within document.outline) :
    (∀ value, outline.node = .value value → ∃ span, value.location = some span ∧
      ∀ source' : Source, source'.body = source.textOf span → parseValue source' options =
        .ok (value.map fun note : Note => note.bind (Span.moveLeft span.start))) ∧
    (∀ type, outline.node = .type type → ∃ span, type.location = some span ∧
      ∀ source' : Source, source'.body = source.textOf span → parseType source' options =
        .ok (type.map fun note : Note => note.bind (Span.moveLeft span.start))) ∧
    ∀ definition, outline.node = .definition definition →
    ∃ span, definition.location = some span ∧
      ∀ source' : Source, source'.body = source.textOf span →
        ∃ alone, parse source' options = .ok alone ∧ alone.definitions =
          [definition.map fun note : Note => note.bind (Span.moveLeft span.start)] := by
  obtain ⟨tokens, inner, consists⟩ := consists_of_parse parsed
  obtain ⟨tree, derives, rfl⟩ := (parse_eq_ok consists).mp parsed
  have alone := consists.alone_within located derives within
  refine ⟨fun value equal => ?_, fun type equal => ?_, fun definition equal => ?_⟩
  all_goals
    obtain ⟨node, constness, isNode, span, location, alone⟩ := alone (by simp [equal])
    rw [equal] at isNode location alone
    refine ⟨span, location, fun source' body => ?_⟩
  · exact (alone source' body).parseValue_eq (Node.isValue_of_map isNode.symm)
  · exact (alone source' body).parseType_eq (Node.isType_of_map isNode.symm)
  · exact (alone source' body).parse_eq (Node.isDefinition_of_map isNode.symm)

theorem query_textOf :
    ∃ document definition, parse { body := " \x7ba\x7d" } ⟨false, 3⟩ = .ok document ∧
      document.definitions = [definition] ∧ definition.location = some ⟨1, 4⟩ ∧
        ∀ source' : Source, source'.body = Source.textOf { body := " \x7ba\x7d" } ⟨1, 4⟩ →
          ∃ alone, parse source' ⟨false, 3⟩ = .ok alone ∧ alone.definitions =
            [definition.map fun note : Note => note.bind (Span.moveLeft 1)] := by
  have parsed : parse { body := " \x7ba\x7d" } ⟨false, 3⟩ = .ok _ := rfl
  obtain ⟨_, _, each⟩ :=
    parse_textOf rfl parsed (.deeper (List.mem_singleton.mpr rfl) (.refl _))
  obtain ⟨span, location, alone⟩ := each _ rfl
  cases location
  exact ⟨_, _, parsed, rfl, rfl, alone⟩

end GraphQL
