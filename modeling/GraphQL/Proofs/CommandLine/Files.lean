import GraphQL.CommandLine.FileTree
import GraphQL.Proofs.Lexing.Reading
import Mathlib.Data.List.Basic

/-! Files in directories.

Paths are rows of names to follow, and what a path leads to is where it is said to be.
Where the names in every directory are in order, so they are in what is put into them. -/

namespace GraphQL

open Text

namespace FileTree

variable {tree item : FileTree} {entries : List (String × FileTree)} {name : String}
  {path names : List String}

/-! ## Items by their names -/

/-- The names lead down from a tree to what is there. -/
inductive LeadsTo : FileTree → List String → FileTree → Prop
  | here {tree : FileTree} : LeadsTo tree [] tree
  | inside {entries : List (String × FileTree)} {name : String} {tree item : FileTree}
      {names : List String} :
      (name, tree) ∈ entries → LeadsTo tree names item →
      LeadsTo (.directory entries) (name :: names) item

theorem LeadsTo.snoc (leads : tree.LeadsTo names (.directory entries))
    (member : (name, item) ∈ entries) :
    tree.LeadsTo (names ++ [name]) item := by
  induction names generalizing tree with
  | nil =>
      cases leads
      exact .inside member .here
  | cons first names induction =>
      cases leads with
      | inside isEntry leads => exact .inside isEntry (induction leads)

/-- Every directory has each name once, in the order of the names, and no
name is empty. -/
inductive IsOrdered : FileTree → Prop
  | leaf {tree : FileTree} : (∀ entries, tree ≠ .directory entries) → IsOrdered tree
  | directory {entries : List (String × FileTree)} : entries.Pairwise (·.1 < ·.1) →
      (∀ entry ∈ entries, entry.1 ≠ "") → (∀ entry ∈ entries, entry.2.IsOrdered) →
      IsOrdered (.directory entries)

theorem IsOrdered.pairwise (ordered : IsOrdered (.directory entries)) :
    entries.Pairwise (·.1 < ·.1) := by
  cases ordered with
  | leaf other => exact absurd rfl (other entries)
  | directory inOrder _ _ => exact inOrder

theorem IsOrdered.entry (ordered : IsOrdered (.directory entries))
    (member : (name, item) ∈ entries) :
    name ≠ "" ∧ item.IsOrdered := by
  cases ordered with
  | leaf other => exact absurd rfl (other entries)
  | directory _ named trees => exact ⟨named _ member, trees _ member⟩

theorem IsOrdered.leadsTo (ordered : tree.IsOrdered) (leads : tree.LeadsTo names item) :
    item.IsOrdered := by
  induction leads with
  | here => exact ordered
  | inside member _ induction => exact induction (ordered.entry member).2

/-! ## Putting files into directories -/

theorem mem_insertSorted {entry : String × FileTree}
    (member : entry ∈ Assoc.insertSorted name tree entries) :
    entry = (name, tree) ∨ entry ∈ entries := by
  induction entries with
  | nil => exact .inl (List.mem_singleton.mp member)
  | cons first rest induction =>
      unfold Assoc.insertSorted at member
      split_ifs at member
      · exact (List.mem_cons.mp member).imp_right (List.mem_cons_of_mem _)
      · exact List.mem_cons.mp member
      · rcases List.mem_cons.mp member with rfl | member
        · exact .inr List.mem_cons_self
        · exact (induction member).imp_right (List.mem_cons_of_mem _)

theorem pairwise_insertSorted (inOrder : entries.Pairwise (·.1 < ·.1)) :
    (Assoc.insertSorted name tree entries).Pairwise (·.1 < ·.1) := by
  induction entries with
  | nil => exact List.pairwise_singleton _ _
  | cons entry rest induction =>
      obtain ⟨before, rest⟩ := List.pairwise_cons.mp inOrder
      unfold Assoc.insertSorted
      split_ifs with same first
      · exact List.pairwise_cons.mpr
          ⟨fun other member => same ▸ before other member, rest⟩
      · refine List.pairwise_cons.mpr ⟨?_, inOrder⟩
        rintro other member
        rcases List.mem_cons.mp member with rfl | member
        · exact first
        · exact String.lt_trans first (before other member)
      · refine List.pairwise_cons.mpr ⟨?_, induction rest⟩
        intro other member
        rcases mem_insertSorted member with rfl | member
        · exact Std.lt_of_le_of_ne (String.not_lt.mp first) (Ne.symm same)
        · exact before other member

theorem IsOrdered.modify {change : FileTree → FileTree}
    (changes : ∀ {tree : FileTree}, tree.IsOrdered → (change tree).IsOrdered)
    (named : ∀ name ∈ path, name ≠ "") (ordered : tree.IsOrdered) :
    (tree.modify change path).IsOrdered := by
  have empty : IsOrdered (.directory []) := .directory .nil nofun nofun
  have put {entries : List (String × FileTree)} {name : String} {below : FileTree}
      (ordered : IsOrdered (.directory entries)) (isNamed : name ≠ "")
      (isBelow : below.IsOrdered) :
      IsOrdered (.directory (Assoc.insertSorted name below entries)) := by
    have each : ∀ entry ∈ Assoc.insertSorted name below entries, entry.1 ≠ "" ∧
        entry.2.IsOrdered := by
      intro entry member
      rcases mem_insertSorted member with rfl | member
      · exact ⟨isNamed, isBelow⟩
      · exact ordered.entry member
    exact .directory (pairwise_insertSorted ordered.pairwise)
      (fun entry member => (each entry member).1)
      fun entry member => (each entry member).2
  induction path generalizing tree with
  | nil => cases tree <;> exact changes ordered
  | cons name path induction =>
      obtain ⟨first, others⟩ := List.forall_mem_cons.mp named
      cases tree with
      | directory entries =>
          refine put ordered first (induction others ?_)
          cases found : Assoc.find? name entries with
          | none => exact empty
          | some item =>
              obtain ⟨entry, isEntry, rfl⟩ := Option.map_eq_some_iff.mp found
              exact (ordered.entry (List.mem_of_find?_eq_some isEntry)).2
      | _ => exact put empty first (induction others empty)

theorem IsOrdered.insert (ordered : tree.IsOrdered) (named : ∀ name ∈ path, name ≠ "")
    (isOrdered : item.IsOrdered) : (tree.insert path item).IsOrdered :=
  ordered.modify (fun _ => isOrdered) named

theorem IsOrdered.makeDirectory (ordered : tree.IsOrdered)
    (named : ∀ name ∈ path, name ≠ "") :
    (tree.makeDirectory path).IsOrdered := by
  refine ordered.modify (fun {tree} ordered => ?_) named
  cases tree with
  | directory entries => exact ordered
  | _ => exact .directory .nil nofun nofun

end FileTree

/-! ## Paths -/

namespace FileSystem

/-- The trail leads down from the root. -/
inductive Trail.IsFrom (root : FileTree) : Trail → Prop
  | root : IsFrom root ⟨[], root⟩
  | inside {above : List (String × FileTree)} {entries : List (String × FileTree)}
      {name : String}
      {item : FileTree} : IsFrom root ⟨above, .directory entries⟩ →
        (name, item) ∈ entries →
      IsFrom root ⟨(name, .directory entries) :: above, item⟩

namespace Trail

variable {root : FileTree} {trail trail' : Trail}

theorem IsFrom.leadsTo (isFrom : trail.IsFrom root) :
    root.LeadsTo trail.resolved.path trail.resolved.item := by
  induction isFrom with
  | root => exact .here
  | inside _ member leads =>
      rw [Trail.resolved, List.map_cons, List.reverse_cons]
      exact leads.snoc member

theorem IsFrom.up (isFrom : trail.IsFrom root) : trail.up.IsFrom root := by
  cases isFrom with
  | root => exact .root
  | inside isFrom _ => exact isFrom

theorem IsFrom.step (isFrom : trail.IsFrom root) {name : String}
    (stepped : trail.step name = .ok trail') :
    trail'.IsFrom root := by
  obtain ⟨above, current⟩ := trail
  unfold Trail.step at stepped
  cases current with
  | directory entries =>
      dsimp only at stepped
      split_ifs at stepped
      · cases stepped
        exact isFrom
      · cases stepped
        exact isFrom.up
      · cases found : Assoc.find? name entries with
        | none =>
            rw [found] at stepped
            cases stepped
        | some item =>
            rw [found] at stepped
            cases stepped
            obtain ⟨⟨name', item'⟩, isEntry, rfl⟩ := Option.map_eq_some_iff.mp found
            obtain rfl : name' = name := by simpa using List.find?_some isEntry
            exact isFrom.inside (List.mem_of_find?_eq_some isEntry)
  | _ => cases stepped

theorem IsFrom.steps {names : List String} (isFrom : trail.IsFrom root)
    (stepped : names.foldlM Trail.step trail = .ok trail') : trail'.IsFrom root := by
  induction names generalizing trail with
  | nil =>
      cases stepped
      exact isFrom
  | cons name names induction =>
      rw [List.foldlM_cons] at stepped
      obtain ⟨next, first, rest⟩ := bind_eq_ok.mp stepped
      exact induction (isFrom.step first) rest

end Trail

variable {system : FileSystem} {trail trail' : Trail} {names : List String}
variable {path : String}

theorem start_isFrom (isFrom : trail.IsFrom system.root) :
    (system.start trail path).IsFrom system.root := by
  unfold start
  split
  · exact .root
  · exact isFrom

theorem Trail.IsFrom.along {atLink : Trail → List String → Except FileError Trail}
    (behind : ∀ {trail trail' names}, trail.IsFrom system.root →
      atLink trail names = .ok trail' →
      trail'.IsFrom system.root)
    (isFrom : trail.IsFrom system.root)
    (followed : system.along atLink trail names = .ok trail') :
    trail'.IsFrom system.root := by
  induction names generalizing trail with
  | nil =>
      cases followed
      exact isFrom
  | cons name names induction =>
      unfold FileSystem.along at followed
      obtain ⟨next, stepped, rest⟩ := bind_eq_ok.mp followed
      split at rest
      · exact behind (start_isFrom isFrom) rest
      · exact induction (isFrom.step stepped) rest

theorem Trail.IsFrom.follow {links : Nat} (isFrom : trail.IsFrom system.root)
    (followed : system.follow links trail names = .ok trail') :
    trail'.IsFrom system.root := by
  induction links generalizing trail names trail' with
  | zero =>
      refine isFrom.along (fun _ refused => ?_) followed
      cases refused
  | succ links induction => exact isFrom.along induction followed

theorem leadsTo_of_resolve {place : Resolved}
    (resolves : system.resolve path = .ok place) :
    system.root.LeadsTo place.path place.item := by
  have fromRoot : Trail.IsFrom system.root ⟨[], system.root⟩ := .root
  have arrives {start : Trail} (isFrom : start.IsFrom system.root)
      (rest : (system.follow FileTree.linkLimit start (splitString '/' path) >>=
        fun trail =>
          .ok trail.resolved) = .ok place) : system.root.LeadsTo place.path
            place.item := by
    obtain ⟨trail, followed, equal⟩ := bind_eq_ok.mp rest
    cases equal
    exact (isFrom.follow followed).leadsTo
  unfold resolve at resolves
  by_cases nul : path.toList.contains '\x00'
  · rw [if_pos nul] at resolves
    cases resolves
  by_cases empty : path = ""
  · rw [if_neg nul, if_pos empty] at resolves
    cases resolves
  by_cases long : FileTree.pathLimit ≤ path.utf8ByteSize
  · rw [if_neg nul, if_neg empty, if_pos long] at resolves
    cases resolves
  rw [if_neg nul, if_neg empty, if_neg long] at resolves
  by_cases absolute : path.toList.head? = some '/'
  · rw [if_pos absolute] at resolves
    exact arrives fromRoot resolves
  · rw [if_neg absolute] at resolves
    obtain ⟨start, first, rest⟩ := bind_eq_ok.mp resolves
    exact arrives (fromRoot.steps first) rest

end FileSystem

/-! ## Extensions -/

/-- The extension is what follows the last point of the name, unless nothing
is in front of that. -/
def HasExtension (name extension : String) : Prop :=
  ∃ stem, stem ≠ [] ∧ name.toList = stem ++ '.' :: extension.toList ∧
    '.' ∉ extension.toList

theorem extension?_eq_some_iff {name extension : String} :
    extension? name = some extension ↔ HasExtension name extension := by
  unfold extension?
  constructor
  · intro read
    have halves :=
      List.takeWhile_append_dropWhile (p := (· != '.')) (l := name.toList.reverse)
    have stops := dropWhile_stops (· != '.') name.toList.reverse
    cases dropped : name.toList.reverse.dropWhile (· != '.') with
    | nil => simp [dropped] at read
    | cons point stem =>
      rw [dropped] at halves stops
      obtain rfl : point = '.' := by simpa using stops
      cases stem with
      | nil => simp [dropped] at read
      | cons last stem =>
        simp only [dropped, Option.some.injEq] at read
        subst read
        refine ⟨(last :: stem).reverse, by simp, ?_, ?_⟩
        · exact List.reverse_inj.mp (halves.symm.trans (by simp))
        · intro member
          have passed :=
            List.mem_takeWhile_imp (List.mem_reverse.mp (String.toList_ofList ▸ member))
          exact absurd passed (by decide)
  · rintro ⟨stem, notEmpty, spelled, free⟩
    have reversed :
        name.toList.reverse = extension.toList.reverse ++ '.' :: stem.reverse := by
      simp [spelled]
    have passed : ∀ char ∈ extension.toList.reverse, (char != '.') = true := by
      intro char member
      have : char ≠ '.' := by
        rintro rfl
        exact free (List.mem_reverse.mp member)
      simpa using this
    obtain ⟨last, front, stem⟩ :=
      List.exists_cons_of_ne_nil (List.reverse_eq_nil_iff.not.mpr notEmpty)
    simp [reversed, List.takeWhile_append_of_pos passed,
      List.dropWhile_append_of_pos passed, stem]

end GraphQL
