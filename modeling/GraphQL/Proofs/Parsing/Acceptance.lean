import GraphQL.Proofs.Derivation.Written
import GraphQL.Proofs.Reading.Parse

/-! What the parser accepts.

The trees that come of parsing are the derivations of the grammar. -/

namespace GraphQL

variable {source : Source} {tokens : List Token} {inner : List Lexeme}
variable {options : ParseOptions}

/-- The tree is a derivation of the tokens from the first to the last. The notes in it
are the numbers of the tokens that each of its nodes is derived from. -/
def Document.DerivedFrom (document : Document Extent) (lexemes : List Lexeme) : Prop :=
  ∃ depth, (Node.document document).Derives extentBetween depth .variable ⟨0, lexemes⟩
    ⟨lexemes.length, []⟩

namespace Document.DerivedFrom

variable {document other : Document Extent}

theorem derives {limit : Nat}
    (derived : document.DerivedFrom (.startOfFile :: (inner ++ [.endOfFile])))
    (deep : inner.length ≤ limit) :
    (Node.document document).Derives extentBetween limit .variable
      ⟨0, .startOfFile :: (inner ++ [.endOfFile])⟩ ⟨inner.length + 2, []⟩ := by
  obtain ⟨depth, derives⟩ := derived
  rw [Node.derives_iff rfl] at derives ⊢
  obtain ⟨spells, location⟩ := derives
  obtain ⟨used, spells, le⟩ := spells.levels_le
  have own : 2 ≤ ((Node.document document).parts .variable).countP Part.isToken := by
    simp [Node.parts, Document.parts, List.countP_cons, Part.isToken]
  have length :
      (Lexeme.startOfFile :: (inner ++ [.endOfFile])).length = inner.length + 2 := by simp
  rw [length] at spells location le
  change 0 + used + _ ≤ inner.length + 2 at le
  exact ⟨spells.mono (by omega), location⟩

/-- No tokens have two derivations. -/
theorem unique (unended : .endOfFile ∉ inner)
    (derived : document.DerivedFrom (.startOfFile :: (inner ++ [.endOfFile])))
    (derived' : other.DerivedFrom (.startOfFile :: (inner ++ [.endOfFile]))) :
    other = document := by
  have inside : Inner (inner.length + 2) inner := ⟨Nat.le_refl _, unended⟩
  have reads : Reads extentBetween inner.length Grammar.definitions _ _ := .definitions
  obtain ⟨definitions, extent⟩ := document
  obtain ⟨definitions', extent'⟩ := other
  obtain ⟨holds, location⟩ := Document.derives_iff.mp (derived.derives (Nat.le_refl _))
  obtain ⟨holds', location'⟩ := Document.derives_iff.mp (derived'.derives (Nat.le_refl _))
  have read := (reads.readWhole_eq_ok (by decide) inside).mpr holds
  have read' := (reads.readWhole_eq_ok (by decide) inside).mpr holds'
  rw [read] at read'
  cases read'
  cases location.trans location'.symm
  rfl

end Document.DerivedFrom

/-- With room for as many levels as there are bytes, just those sources are parsed
whose tokens have a derivation. It is the only one, it is what comes of parsing but
for the notes, and the tokens can be read back from it. -/
theorem parse_eq_ok_iff_derivedFrom (tokenized : tokenize source = .ok tokens)
    (deep : source.size ≤ options.maxNestingDepth) :
    ((∃ document, parse source options = .ok document) ↔
      ∃ tree : Document Extent, tree.DerivedFrom (lexemes tokens)) ∧
    ∀ document, parse source options = .ok document →
      (∃ tree : Document Extent, tree.DerivedFrom (lexemes tokens) ∧
        (∀ other : Document Extent, other.DerivedFrom (lexemes tokens) → other = tree) ∧
          document = tree.map (options.note (significant tokens).toArray)) ∧
      Piece.Spell document.outline.pieces (lexemes tokens) := by
  obtain ⟨inner, consists⟩ := (tokenize_eq_ok.mp tokenized).consists
  have inside := consists.inside
  have enough : inner.length ≤ options.maxNestingDepth :=
    Nat.le_trans (Nat.le_of_add_le_add_right inside.few) deep
  have accepts : ∀ document, parse source options = .ok document ↔ _ :=
    fun _ => parse_eq_ok consists
  rw [consists.lexemes_eq] at accepts ⊢
  constructor
  · constructor
    · rintro ⟨document, parsed⟩
      obtain ⟨tree, derives, _⟩ := (accepts document).mp parsed
      exact ⟨tree, _, by simpa using derives⟩
    · rintro ⟨tree, derived⟩
      exact ⟨_, (accepts _).mpr ⟨tree, derived.derives enough, rfl⟩⟩
  · intro document parsed
    obtain ⟨tree, derives, rfl⟩ := (accepts document).mp parsed
    have derived : tree.DerivedFrom (.startOfFile :: (inner ++ [.endOfFile])) :=
      ⟨_, by simpa using derives⟩
    refine ⟨⟨tree, derived, fun other => derived.unique inside.unended, rfl⟩, ?_⟩
    have ⟨spells, _⟩ := (Node.derives_iff rfl).mp derives
    have covers : Place.Covers ⟨0, .startOfFile :: (inner ++ [.endOfFile])⟩
        (.startOfFile :: (inner ++ [.endOfFile])) ⟨inner.length + 2, []⟩ :=
          ⟨by simp, by simp⟩
    have spell := (spells.map (options.note (significant tokens).toArray)).spell covers
    rw [← Node.parts_map, ← Node.children_eq, ← Outline.piecesOfAll_eq] at spell
    exact spell

theorem shorthand_derivedFrom :
    ∃ tokens, tokenize { body := "\x7ba\x7d" } = .ok tokens ∧
      Source.size { body := "\x7ba\x7d" } ≤ ParseOptions.maxNestingDepth ⟨false, 3⟩ ∧
        ∃ tree : Document Extent, tree.DerivedFrom (lexemes tokens) ∧
          ∀ other : Document Extent, other.DerivedFrom (lexemes tokens) →
          other = tree := by
  have tokenized : tokenize { body := "\x7ba\x7d" } = .ok _ := rfl
  have deep : Source.size { body := "\x7ba\x7d" } ≤
      ParseOptions.maxNestingDepth ⟨false, 3⟩ := by decide
  obtain ⟨_, accepted⟩ := parse_eq_ok_iff_derivedFrom tokenized deep
  obtain ⟨⟨tree, derived, unique, _⟩, _⟩ := accepted _ rfl
  exact ⟨_, tokenized, deep, tree, derived, unique⟩

end GraphQL
