import GraphQL.Proofs.Derivation.Outline

/-! How deep nodes lie within one another.

Selection sets, lists, objects and list types are nested. The levels that a
derivation needs are the most that lie around any one node of it. -/

namespace GraphQL

variable {L M : Type}

namespace Outline

mutual

/-- For each node of an outline, itself first, how many nested nodes there are from
the outermost down to it, of which `around` lie outside of the outline -/
def nestings (around : Nat) : Outline L → List Nat
  | .mk _ node children =>
      (around + node.levels) :: nestingsOfAll (around + node.levels) children

def nestingsOfAll (around : Nat) : List (Outline L) → List Nat
  | [] => []
  | child :: rest => child.nestings around ++ nestingsOfAll around rest

end

/-- The most nested nodes that lie around any node of an outline, itself included -/
def nesting (outline : Outline L) : Nat := (outline.nestings 0).foldr max 0

theorem nesting_le_iff {outline : Outline L} {depth : Nat} :
    outline.nesting ≤ depth ↔ ∀ count ∈ outline.nestings 0, count ≤ depth := by
  rw [nesting]
  induction outline.nestings 0 with
  | nil => simp
  | cons count counts induction => simp [induction]

theorem mem_nestingsOfAll {around count : Nat} {outlines : List (Outline L)} :
    count ∈ nestingsOfAll around outlines ↔
      ∃ outline ∈ outlines, count ∈ outline.nestings around := by
  induction outlines with
  | nil => simp [nestingsOfAll]
  | cons outline outlines induction => simp [nestingsOfAll, induction]

mutual

theorem nestings_add (around more : Nat) (outline : Outline L) :
    outline.nestings (around + more) = (outline.nestings around).map (· + more) := by
  cases outline with
  | mk _ node children =>
      rw [nestings, nestings, List.map_cons, Nat.add_right_comm, nestingsOfAll_add]

theorem nestingsOfAll_add (around more : Nat) (outlines : List (Outline L)) :
    nestingsOfAll (around + more) outlines =
      (nestingsOfAll around outlines).map (· + more) := by
  cases outlines with
  | nil => rfl
  | cons outline outlines =>
      rw [nestingsOfAll, nestingsOfAll, List.map_append, nestings_add, nestingsOfAll_add]

end

end Outline

theorem Node.mem_nestings (constness : Constness) {role : Role} {node : Node L}
    {around count : Nat} :
    count ∈ (node.outline role).nestings around ↔ count = around + node.levels ∨
      ∃ outline ∈ (node.parts constness).flatMap Part.outlines,
        count ∈ outline.nestings (around + node.levels) := by
  rw [Node.outline, Outline.nestings, List.mem_cons, Outline.mem_nestingsOfAll,
    Node.children_eq constness]

namespace Spells

variable {noteOf : Nat → Nat → L} {depth : Nat} {parts : List (Part L)}
variable {place after : Place}

theorem nestings_le (spells : Spells noteOf depth parts place after) {outline : Outline L}
    (member : outline ∈ parts.flatMap Part.outlines) {around count : Nat}
    (counted : count ∈ outline.nestings around) : count ≤ around + depth := by
  induction spells generalizing outline around count with
  | nil => cases member
  | token _ _ _ induction | putIn _ _ _ induction => exact induction member counted
  | leftOut _ induction | provided _ _ induction | notBefore _ _ induction =>
      exact induction member counted
  | @child _ inner _ _ node _ _ _ _ levels _ _ _ inside rest =>
      rcases List.mem_cons.mp member with rfl | member
      · rcases (Node.mem_nestings _).mp counted with rfl | ⟨outline, member, counted⟩
        · omega
        · have le := inside member counted
          omega
      · exact rest member counted

/-- A derivation needs no more levels than the tree has, whatever its notes. -/
theorem shallower (note : L → M)
    (spells : Spells noteOf depth parts place after) {limit : Nat}
    (within : ∀ outline ∈ (parts.map (·.map note)).flatMap Part.outlines,
      ∀ count ∈ outline.nestings 0, count ≤ limit) :
    Spells noteOf limit parts place after := by
  induction spells generalizing limit with
  | nil => exact .nil
  | token covers fits _ induction => exact .token covers fits (induction within)
  | leftOut _ induction => exact .leftOut (induction within)
  | putIn covers fits _ induction => exact .putIn covers fits (induction within)
  | provided holds _ induction => exact .provided holds (induction within)
  | notBefore other _ induction => exact .notBefore other (induction within)
  | @child _ _ role constness node _ _ _ _ _ _ location _ inside rest =>
      have below := within ((node.map note).outline role) (List.mem_cons_self ..)
      have levels : (node.map note).levels = node.levels := by
        rw [Node.levels, Node.isNested_map, Node.levels]
      have own : node.levels ≤ limit := by
        have le := below _ ((Node.mem_nestings constness).mpr (.inl rfl))
        rwa [Nat.zero_add, levels] at le
      refine .child (Nat.sub_add_cancel own).symm
        (inside fun outline member count counted => ?_)
        location (rest fun outline member =>
          within outline (List.mem_cons_of_mem _ member))
      -- Seen from outside, the child lies as much deeper as its parent adds.
      have counted' : count + node.levels ∈ outline.nestings (0 + node.levels) := by
        rw [Outline.nestings_add]
        exact List.mem_map_of_mem counted
      rw [← Node.parts_map] at member
      have le := below _ ((Node.mem_nestings constness).mpr
        (.inr ⟨outline, member, levels.symm ▸ counted'⟩))
      omega

end Spells

/-- A tree is derived with as many levels as its nodes need, and with no fewer. -/
theorem Node.Derives.nesting_le_iff {noteOf : Nat → Nat → L} {depth limit : Nat}
    {constness : Constness} {node : Node L} {place after : Place}
    (note : L → M) (role : Role)
    (derives : node.Derives noteOf depth constness place after) :
    ((node.map note).outline role).nesting ≤ limit ↔
      node.Derives noteOf limit constness place after := by
  let parts : List (Part L) := [.child role constness node]
  have spells_iff : ∀ depth, Spells noteOf depth parts place after ↔
      node.Derives noteOf depth constness place after := by simp [parts]
  rw [← spells_iff, Outline.nesting_le_iff]
  constructor
  · intro within
    refine ((spells_iff depth).mpr derives).shallower note fun outline member => ?_
    obtain rfl := List.mem_singleton.mp member
    exact within
  · intro spells count counted
    have mapped := spells.map note
    have le := mapped.nestings_le (List.mem_singleton.mpr rfl) counted
    rwa [Nat.zero_add] at le

end GraphQL
