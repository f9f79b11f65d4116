import GraphQL.Proofs.Derivation.Production

/-! Derivations: which tokens a tree is written with. -/

namespace GraphQL

variable {L M : Type}

/-! ## Places -/

/-- The first of the tokens ahead. Past the last token there is nothing but the end. -/
def foremost (ahead : List Lexeme) : Lexeme := ahead.headD .endOfFile

/-- A place among the tokens that the grammar sees: how many lie behind, and what
those ahead say. -/
structure Place where
  ordinal : Nat
  ahead : List Lexeme

namespace Place

def current (place : Place) : Lexeme := foremost place.ahead

/-- `covered` are the tokens from one place to another. -/
def Covers (place : Place) (covered : List Lexeme) (after : Place) : Prop :=
  place.ahead = covered ++ after.ahead ∧ after.ordinal = place.ordinal + covered.length

@[simp] theorem covers_nil (place after : Place) :
    place.Covers [] after ↔ after = place := by
  cases place
  cases after
  simp only [Covers, List.nil_append, List.length_nil, Nat.add_zero, mk.injEq,
    eq_comm, and_comm]

@[simp] theorem covers_cons {ordinal : Nat} {first found : Lexeme} {ahead : List Lexeme}
    {after : Place} :
    (⟨ordinal, first :: ahead⟩ : Place).Covers [found] after ↔
      found = first ∧ after = ⟨ordinal + 1, ahead⟩ := by
  cases after
  simp only [Covers, List.cons_append, List.nil_append, List.cons.injEq, List.length_cons,
    List.length_nil, Nat.zero_add, mk.injEq]
  grind

theorem Covers.trans {place middle after : Place} {first second : List Lexeme}
    (before : place.Covers first middle) (behind : middle.Covers second after) :
    place.Covers (first ++ second) after := by
  refine ⟨?_, ?_⟩
  · rw [before.1, behind.1, List.append_assoc]
  · rw [behind.2, before.2, List.length_append, Nat.add_assoc]

theorem Covers.split {place after : Place} {first second : List Lexeme}
    (covers : place.Covers (first ++ second) after) :
    ∃ middle, place.Covers first middle ∧ middle.Covers second after := by
  refine ⟨⟨place.ordinal + first.length, second ++ after.ahead⟩, ⟨?_, rfl⟩, rfl, ?_⟩
  · rw [covers.1, List.append_assoc]
  · rw [covers.2, List.length_append, Nat.add_assoc]

theorem Covers.le {place after : Place} {covered : List Lexeme}
    (covers : place.Covers covered after) : place.ordinal ≤ after.ordinal := by
  rw [covers.2]
  exact Nat.le_add_right _ _

theorem Covers.unique {place after other : Place} {first second : List Lexeme}
    (covers : place.Covers first after) (covers' : place.Covers second other)
    (length : first.length = second.length) : after = other := by
  have ordinal : after.ordinal = other.ordinal := by rw [covers.2, covers'.2, length]
  have ahead := (List.append_inj (covers.1.symm.trans covers'.1) length).2
  cases after
  cases other
  cases ordinal
  cases ahead
  rfl

theorem Covers.current {place after : Place} {found : Lexeme} {covered : List Lexeme}
    (covers : place.Covers (found :: covered) after) : place.current = found := by
  rw [Place.current, covers.1]
  rfl

end Place

/-! ## Derivations -/

/-- How many levels a node adds to what is around it. -/
def Node.levels (node : Node L) : Nat := if node.isNested then 1 else 0

/-- The parts are written as the tokens from one place to another, with at most
`depth` levels of nested nodes within one another. Of every node below the parts,
`noteOf` gives the note, from the numbers of its first token and of the one after
its last. -/
inductive Spells (noteOf : Nat → Nat → L) : Nat → List (Part L) → Place → Place → Prop
  | nil {depth place} : Spells noteOf depth [] place place
  | token {depth spelling found parts place middle after} :
      place.Covers [found] middle → spelling.Fits found →
      Spells noteOf depth parts middle after →
      Spells noteOf depth (.token spelling :: parts) place after
  | leftOut {depth spelling parts place after} :
      Spells noteOf depth parts place after →
      Spells noteOf depth (.perhaps spelling :: parts) place after
  | putIn {depth spelling found parts place middle after} :
      place.Covers [found] middle → spelling.Fits found →
      Spells noteOf depth parts middle after →
      Spells noteOf depth (.perhaps spelling :: parts) place after
  | provided {depth condition parts place after} :
      condition = true → Spells noteOf depth parts place after →
      Spells noteOf depth (.provided condition :: parts) place after
  | notBefore {depth mark parts place after} :
      place.current ≠ .punctuator mark → Spells noteOf depth parts place after →
      Spells noteOf depth (.notBefore mark :: parts) place after
  | child {depth inner role constness node parts place middle after} :
      depth = inner + Node.levels node →
      Spells noteOf inner (node.parts constness) place middle →
      node.location = noteOf place.ordinal middle.ordinal →
      Spells noteOf depth parts middle after →
      Spells noteOf depth (.child role constness node :: parts) place after

/-- The node is written as the tokens from one place to another. -/
def Node.Derives (noteOf : Nat → Nat → L) (depth : Nat) (constness : Constness)
    (node : Node L) (place after : Place) : Prop :=
  ∃ inner, depth = inner + node.levels ∧
    Spells noteOf inner (node.parts constness) place after ∧
    node.location = noteOf place.ordinal after.ordinal

namespace Spells

variable {noteOf : Nat → Nat → L} {depth : Nat} {parts : List (Part L)}
variable {place after : Place}

/-! ### One part after another -/

@[simp] theorem nil_iff : Spells noteOf depth [] place after ↔ after = place := by
  constructor
  · intro spells
    cases spells
    rfl
  · rintro rfl
    exact .nil

@[simp] theorem token_iff {spelling : Spelling} :
    Spells noteOf depth (.token spelling :: parts) place after ↔
      ∃ found middle, place.Covers [found] middle ∧ spelling.Fits found ∧
        Spells noteOf depth parts middle after := by
  constructor
  · intro spells
    cases spells with
    | token covers fits rest => exact ⟨_, _, covers, fits, rest⟩
  · rintro ⟨found, middle, covers, fits, rest⟩
    exact .token covers fits rest

@[simp] theorem perhaps_iff {spelling : Spelling} :
    Spells noteOf depth (.perhaps spelling :: parts) place after ↔
      Spells noteOf depth parts place after ∨
        Spells noteOf depth (.token spelling :: parts) place after := by
  constructor
  · intro spells
    cases spells with
    | leftOut rest => exact .inl rest
    | putIn covers fits rest => exact .inr (.token covers fits rest)
  · rintro (rest | taken)
    · exact .leftOut rest
    · cases taken with
      | token covers fits rest => exact .putIn covers fits rest

@[simp] theorem provided_iff {condition : Bool} :
    Spells noteOf depth (.provided condition :: parts) place after ↔
      condition = true ∧ Spells noteOf depth parts place after := by
  constructor
  · intro spells
    cases spells with
    | provided holds rest => exact ⟨holds, rest⟩
  · rintro ⟨holds, rest⟩
    exact .provided holds rest

@[simp] theorem notBefore_iff {mark : Punctuator} :
    Spells noteOf depth (.notBefore mark :: parts) place after ↔
      place.current ≠ .punctuator mark ∧ Spells noteOf depth parts place after := by
  constructor
  · intro spells
    cases spells with
    | notBefore other rest => exact ⟨other, rest⟩
  · rintro ⟨other, rest⟩
    exact .notBefore other rest

@[simp] theorem child_iff {role : Role} {constness : Constness} {node : Node L} :
    Spells noteOf depth (.child role constness node :: parts) place after ↔
      ∃ middle, node.Derives noteOf depth constness place middle ∧
        Spells noteOf depth parts middle after := by
  constructor
  · intro spells
    cases spells with
    | child levels inside location rest => exact ⟨_, ⟨_, levels, inside, location⟩, rest⟩
  · rintro ⟨middle, ⟨inner, levels, inside, location⟩, rest⟩
    exact .child levels inside location rest

@[simp] theorem append_iff {first second : List (Part L)} :
    Spells noteOf depth (first ++ second) place after ↔
      ∃ middle, Spells noteOf depth first place middle ∧
        Spells noteOf depth second middle after := by
  induction first generalizing place with
  | nil => simp
  | cons part first induction =>
      cases part <;> simp only [List.cons_append, token_iff, perhaps_iff, provided_iff,
        notBefore_iff, child_iff, induction] <;> grind

/-! ### What derivations depend on -/

theorem covers (spells : Spells noteOf depth parts place after) :
    ∃ covered, place.Covers covered after := by
  induction spells with
  | nil => exact ⟨[], by simp⟩
  | token taken _ _ induction | putIn taken _ _ induction =>
      obtain ⟨covered, rest⟩ := induction
      exact ⟨_, taken.trans rest⟩
  | leftOut _ induction | provided _ _ induction | notBefore _ _ induction =>
      exact induction
  | child _ _ _ _ inside rest =>
      obtain ⟨first, inside⟩ := inside
      obtain ⟨second, rest⟩ := rest
      exact ⟨_, inside.trans rest⟩

theorem mono {deeper : Nat} (spells : Spells noteOf depth parts place after)
    (le : depth ≤ deeper) : Spells noteOf deeper parts place after := by
  induction spells generalizing deeper with
  | nil => exact .nil
  | token covers fits _ induction => exact .token covers fits (induction le)
  | leftOut _ induction => exact .leftOut (induction le)
  | putIn covers fits _ induction => exact .putIn covers fits (induction le)
  | provided holds _ induction => exact .provided holds (induction le)
  | notBefore other _ induction => exact .notBefore other (induction le)
  | child levels _ location _ inside rest =>
      subst levels
      obtain ⟨more, rfl⟩ := Nat.exists_eq_add_of_le le
      exact .child (by rw [Nat.add_right_comm])
        (inside (Nat.le_add_right _ more)) location
        (rest le)

theorem lt (spells : Spells noteOf depth parts place after)
    (isSolid : parts.any Part.isSolid = true) :
    place.ordinal < after.ordinal := by
  induction spells with
  | nil => cases isSolid
  | token covers _ rest | putIn covers _ rest =>
      obtain ⟨_, rest⟩ := rest.covers
      rw [rest.2, covers.2]
      simp only [List.length_cons, List.length_nil]
      omega
  | leftOut _ induction | provided _ _ induction | notBefore _ _ induction =>
      exact induction isSolid
  | child _ _ _ rest inside =>
      obtain ⟨_, rest⟩ := rest.covers
      exact Nat.lt_of_lt_of_le (inside (Node.parts_isSolid _ _)) rest.le

end Spells

theorem Node.Derives.mono {noteOf : Nat → Nat → L} {depth deeper : Nat}
    {constness : Constness}
    {node : Node L} {place after : Place}
    (derives : node.Derives noteOf depth constness place after)
    (le : depth ≤ deeper) : node.Derives noteOf deeper constness place after := by
  obtain ⟨inner, rfl, spells, location⟩ := derives
  obtain ⟨more, rfl⟩ := Nat.exists_eq_add_of_le le
  exact ⟨inner + more, Nat.add_right_comm .., spells.mono (Nat.le_add_right ..), location⟩

theorem Node.Derives.lt {noteOf : Nat → Nat → L} {depth : Nat} {constness : Constness}
    {node : Node L}
    {place after : Place} (derives : node.Derives noteOf depth constness place after) :
    place.ordinal < after.ordinal := by
  obtain ⟨_, _, spells, _⟩ := derives
  exact spells.lt (parts_isSolid _ _)

theorem Node.Derives.covers {noteOf : Nat → Nat → L} {depth : Nat} {constness : Constness}
    {node : Node L}
    {place after : Place} (derives : node.Derives noteOf depth constness place after) :
    ∃ covered, place.Covers covered after := by
  obtain ⟨_, _, spells, _⟩ := derives
  exact spells.covers

/-- A node that is not nested lies on the level of its parts. -/
theorem Node.derives_iff {noteOf : Nat → Nat → L} {depth : Nat} {constness : Constness}
    {node : Node L} {place after : Place} (flat : node.isNested = false) :
    node.Derives noteOf depth constness place after ↔
      Spells noteOf depth (node.parts constness) place after ∧
        node.location = noteOf place.ordinal after.ordinal := by
  simp [Node.Derives, Node.levels, flat]

end GraphQL
