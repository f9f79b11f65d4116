import GraphQL.Proofs.Derivation.Outline

/-! Reading a tree back.

All the names, literals, keywords and marks that a tree is written with follow from
its outline and the productions of its nodes. -/

namespace GraphQL

variable {L : Type}

/-- A token that a tree is written with. If it says nothing that the tree keeps, it
may be left out. -/
structure Piece where
  spelling : Spelling
  isOptional : Bool

namespace Piece

/-- The tokens are written as the pieces say. -/
inductive Spell : List Piece → List Lexeme → Prop
  | nil : Spell [] []
  | token {spelling isOptional pieces found rest} :
      spelling.Fits found → Spell pieces rest →
        Spell (⟨spelling, isOptional⟩ :: pieces) (found :: rest)
  | leftOut {spelling pieces rest} :
      Spell pieces rest → Spell (⟨spelling, true⟩ :: pieces) rest

theorem Spell.append {first second : List Piece} {covered rest : List Lexeme}
    (spell : Spell first covered) (spell' : Spell second rest) :
    Spell (first ++ second) (covered ++ rest) := by
  induction spell with
  | nil => exact spell'
  | token fits _ induction => exact .token fits induction
  | leftOut _ induction => exact .leftOut induction

end Piece

def Part.pieces : List (Part L) → List (List Piece) → List Piece
  | [], _ => []
  | .token spelling :: parts, inner => ⟨spelling, false⟩ :: pieces parts inner
  | .perhaps spelling :: parts, inner => ⟨spelling, true⟩ :: pieces parts inner
  | .provided _ :: parts, inner | .notBefore _ :: parts, inner => pieces parts inner
  | .child _ _ _ :: parts, inner => inner.headD [] ++ pieces parts inner.tail

mutual

/-- What a node and all those below it are written with, in order -/
def Outline.pieces : Outline L → List Piece
  | .mk _ node children =>
      Part.pieces (node.parts .variable) (Outline.piecesOfAll children)

def Outline.piecesOfAll : List (Outline L) → List (List Piece)
  | [] => []
  | child :: rest => child.pieces :: Outline.piecesOfAll rest

end

theorem Outline.piecesOfAll_eq (outlines : List (Outline L)) :
    Outline.piecesOfAll outlines = outlines.map Outline.pieces := by
  induction outlines with
  | nil => rfl
  | cons outline outlines induction => rw [Outline.piecesOfAll, List.map_cons, induction]

theorem Part.pieces_of_relaxes {parts parts' : List (Part L)}
    (relaxes : List.Forall₂ Part.Relaxes parts parts') (inner : List (List Piece)) :
    Part.pieces parts' inner = Part.pieces parts inner := by
  induction relaxes generalizing inner with
  | nil => rfl
  | @cons part _ _ _ relaxes _ induction =>
      cases relaxes with
      | same => cases part <;> simp [Part.pieces, induction]
      | provided => simp [Part.pieces, induction]
      | child => simp [Part.pieces, induction]

theorem Spells.spell {noteOf : Nat → Nat → L} {depth : Nat} {parts : List (Part L)}
    {place after : Place} {covered : List Lexeme}
    (spells : Spells noteOf depth parts place after)
    (covers : place.Covers covered after) :
    Piece.Spell (Part.pieces parts ((parts.flatMap Part.outlines).map Outline.pieces))
      covered := by
  induction spells generalizing covered with
  | nil =>
      obtain rfl := covers.cancel ((Place.covers_nil _ _).mpr rfl)
      exact .nil
  | token taken fits rest induction | putIn taken fits rest induction =>
      obtain ⟨behind, covers'⟩ := rest.covers
      obtain rfl := covers.cancel (taken.trans covers')
      exact .token fits (induction covers')
  | leftOut _ induction => exact .leftOut (induction covers)
  | provided _ _ induction | notBefore _ _ induction => exact induction covers
  | @child _ _ role constness node parts _ _ _ _ inside _ rest induction induction' =>
      obtain ⟨before, covers'⟩ := inside.covers
      obtain ⟨behind, covers''⟩ := rest.covers
      obtain rfl := covers.cancel (covers'.trans covers'')
      have spell := induction covers'
      rw [← Node.children_eq, ← Part.pieces_of_relaxes (node.parts_relaxes constness),
        ← Outline.piecesOfAll_eq] at spell
      exact spell.append (induction' covers'')

end GraphQL
