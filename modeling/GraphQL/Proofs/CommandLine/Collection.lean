import GraphQL.CommandLine.Check
import GraphQL.Proofs.CommandLine.Walks
import Mathlib.Algebra.BigOperators.Group.List.Basic
import Mathlib.Algebra.Ring.Nat

/-! Files found for a check.

A check walks the directories under its paths one after another. Every file that a walk
comes upon is checked or counted as passed over, as its name says. -/

namespace GraphQL

open Text
open FileSystem (Found lastName pathText)

namespace Check

variable {system : FileSystem} {extensions paths : List String} {path : String}
variable {found : Found}
  {walk : List Found} {walks : List (List Found)} {part collection : Collection}
  {parts : List Collection}

/-! ## Files to check -/

/-- An extension without the points in front of it. -/
def TrimsTo (given extension : String) : Prop :=
  extension.toList.head? ≠ some '.' ∧
    ∃ count, given.toList = List.replicate count '.' ++ extension.toList

theorem trimPoints_eq_iff {given extension : String} :
    trimPoints given = extension ↔ TrimsTo given extension := by
  unfold trimPoints
  constructor
  · rintro rfl
    rw [TrimsTo, String.toList_ofList]
    refine ⟨fun point => ?_, (given.toList.takeWhile (· == '.')).length, ?_⟩
    · exact absurd (dropWhile_stops _ _ _ point) (by decide)
    · have points : ∀ char ∈ given.toList.takeWhile (· == '.'), char = '.' :=
        fun char member => by simpa using List.mem_takeWhile_imp member
      rw [← List.eq_replicate_of_mem points]
      exact List.takeWhile_append_dropWhile.symm
  · rintro ⟨stops, count, spelled⟩
    have points : ∀ char ∈ List.replicate count '.', (char == '.') = true :=
      fun char member => by simpa using List.eq_of_mem_replicate member
    rw [spelled, List.dropWhile_append_of_pos points]
    cases chars : extension.toList with
    | nil => simpa using chars.symm
    | cons first rest =>
        have isOther : first ≠ '.' := by simpa [chars] using stops
        rw [List.dropWhile_cons_of_neg (by simpa using isOther), ← chars,
          String.ofList_toList]

def IsWanted (extensions : List String) (found : Found) : Prop :=
  ∃ given ∈ extensions, ∃ extension, TrimsTo given extension ∧
    HasExtension (lastName found.names) extension

theorem hasExtension_iff :
    hasExtension extensions (lastName found.names) = true ↔
      IsWanted extensions found := by
  simp only [hasExtension, IsWanted, Option.any_eq_true, extension?_eq_some_iff,
    List.contains_iff_mem, List.mem_map, trimPoints_eq_iff]
  constructor
  · rintro ⟨extension, has, given, member, trims⟩
    exact ⟨given, member, extension, trims, has⟩
  · rintro ⟨given, member, extension, trims, has⟩
    exact ⟨extension, has, given, member, trims⟩

instance : DecidablePred (IsWanted extensions) :=
  fun _ => decidable_of_iff _ hasExtension_iff

def targetOf (found : Found) : Target := ⟨pathText found.place, found.content⟩

/-- All under the path can be opened, and no file to check is at too long a place. -/
def Finds (system : FileSystem) (extensions : List String) (path : String) : Prop :=
  system.Opens path ∧ ∀ walk, system.Walks path walk →
    ∀ found ∈ walk, IsWanted extensions found →
    (pathText found.place).utf8ByteSize < FileTree.pathLimit

theorem targetOf?_eq_ok_iff {target : Target} : targetOf? found = .ok target ↔
    (pathText found.place).utf8ByteSize < FileTree.pathLimit ∧
    targetOf found = target := by
  unfold targetOf? targetOf
  dsimp only
  split_ifs with long
  · exact ⟨nofun, fun ⟨short, _⟩ => absurd long (Nat.not_le_of_lt short)⟩
  · rw [Except.ok.injEq]
    exact ⟨fun equal => ⟨Nat.lt_of_not_le long, equal⟩, fun ⟨_, equal⟩ => equal⟩

/-! ## One path after another -/

/-- What is collected from a walk. -/
structure Gathers (extensions : List String) (walk : List Found)
    (part : Collection) : Prop where
  targets : part.targets = (walk.filter (IsWanted extensions ·)).map targetOf
  skipped : part.skipped = (walk.filter (¬ IsWanted extensions ·)).length

theorem mapM_targetOf?_eq_ok_iff {founds : List Found} {targets : List Target} :
    founds.mapM targetOf? = .ok targets ↔
      (∀ found ∈ founds, (pathText found.place).utf8ByteSize < FileTree.pathLimit) ∧
        founds.map targetOf = targets := by
  rw [mapM_eq_ok_iff]
  simp only [targetOf?_eq_ok_iff]
  rw [List.forall₂_and_left, List.forall₂_map_left_iff.symm, List.forall₂_eq_eq_eq]

/-- The files of one walk are parted by their names, and those to check are
found at their places. -/
theorem collectUnder_eq_ok_iff_filesUnder :
    collectUnder system extensions path = .ok part ↔
    ∃ walk, system.filesUnder path = .ok walk ∧
      (∀ found ∈ walk, IsWanted extensions found →
        (pathText found.place).utf8ByteSize < FileTree.pathLimit) ∧
      Gathers extensions walk part := by
  have wanted (found : Found) :
      hasExtension extensions (lastName found.names) =
        decide (IsWanted extensions found) := by
    rw [Bool.eq_iff_iff, hasExtension_iff, decide_eq_true_iff]
  have others : (not ∘ fun found => decide (IsWanted extensions found)) =
      fun found => decide (¬ IsWanted extensions found) := funext fun _ => decide_not.symm
  unfold collectUnder
  simp only [List.partition_eq_filter_filter, wanted, others]
  rw [bind_eq_ok]
  refine exists_congr fun walk => and_congr_right fun _ => ?_
  rw [bind_eq_ok]
  simp only [mapM_targetOf?_eq_ok_iff, List.mem_filter, decide_eq_true_iff, and_imp]
  constructor
  · rintro ⟨targets, ⟨short, rfl⟩, equal⟩
    cases equal
    exact ⟨short, rfl, rfl⟩
  · obtain ⟨targets, skipped⟩ := part
    rintro ⟨short, rfl, rfl⟩
    exact ⟨_, ⟨short, rfl⟩, rfl⟩

theorem collectUnder_eq_ok_iff (ordered : system.root.IsOrdered) :
    collectUnder system extensions path = .ok part ↔
      Finds system extensions path ∧ ∃ walk, system.Walks path walk ∧
      Gathers extensions walk part := by
  have listed {walk : List Found} :
      system.filesUnder path = .ok walk ↔ system.Opens path ∧ system.Walks path walk :=
    FileSystem.filesUnder_eq_ok_iff ordered
  rw [collectUnder_eq_ok_iff_filesUnder]
  constructor
  · rintro ⟨walk, found, short, gathers⟩
    obtain ⟨opens, walks⟩ := listed.mp found
    refine ⟨⟨opens, fun walk' walks' => ?_⟩, walk, walks, gathers⟩
    obtain rfl := Except.ok.inj (found.symm.trans (listed.mpr ⟨opens, walks'⟩))
    exact short
  · rintro ⟨⟨opens, short⟩, walk, walks, gathers⟩
    exact ⟨walk, listed.mpr ⟨opens, walks⟩, short walk walks, gathers⟩

theorem exists_collectUnder_iff (ordered : system.root.IsOrdered) :
    (∃ part, collectUnder system extensions path = .ok part) ↔
      Finds system extensions path := by
  simp only [collectUnder_eq_ok_iff ordered]
  constructor
  · rintro ⟨part, finds, _⟩
    exact finds
  · intro finds
    obtain ⟨walk, walks⟩ := FileSystem.exists_walks_of_opens ordered finds.1
    exact ⟨⟨_, _⟩, finds, walk, walks, rfl, rfl⟩

theorem exists_walks (ordered : system.root.IsOrdered)
    (steps : List.Forall₂ (fun path part => collectUnder system extensions path =
      .ok part) paths parts) :
    ∃ walks, List.Forall₂ system.Walks paths walks ∧
      List.Forall₂ (Gathers extensions) walks parts := by
  induction steps with
  | nil => exact ⟨[], .nil, .nil⟩
  | cons first _ induction =>
      obtain ⟨_, walk, isWalk, gathers⟩ := (collectUnder_eq_ok_iff ordered).mp first
      obtain ⟨walks, areWalks, all⟩ := induction
      exact ⟨walk :: walks, .cons isWalk areWalks, .cons gathers all⟩

theorem targets_of_gathers (gathers : List.Forall₂ (Gathers extensions) walks parts) :
    parts.flatMap Collection.targets =
      (walks.flatten.filter (IsWanted extensions ·)).map targetOf := by
  induction gathers with
  | nil => rfl
  | cons first _ induction =>
      rw [List.flatMap_cons, List.flatten_cons, List.filter_append, List.map_append,
        first.targets, induction]

theorem skipped_of_gathers (gathers : List.Forall₂ (Gathers extensions) walks parts) :
    parts.foldl (fun sum part => sum + part.skipped) 0 =
      (walks.flatten.filter (¬ IsWanted extensions ·)).length := by
  rw [← List.foldl_map (f := Collection.skipped) (g := (· + ·)), ← List.sum_eq_foldl]
  induction gathers with
  | nil => rfl
  | cons first _ induction =>
      rw [List.map_cons, List.sum_cons, List.flatten_cons, List.filter_append,
        List.length_append, first.skipped, induction]

/-! ## All paths -/

/-- No file is checked for its name, and the only path leads to a file with
that content. -/
structure IsOwn (system : FileSystem) (extensions paths : List String)
    (walks : List (List Found))
    (path : String) (content : Except FileError String) : Prop where
  only : paths = [path]
  isFile : ∃ place, system.resolve path = .ok ⟨place, .regular content⟩
  unwanted : ∀ found ∈ walks.flatten, ¬ IsWanted extensions found

/-- What is collected from all walks. -/
structure Collects (system : FileSystem) (extensions paths : List String)
    (walks : List (List Found)) (collection : Collection) : Prop where
  /-- Every file that a walk comes upon is checked or passed over. -/
  counted : collection.targets.length + collection.skipped = (walks.map List.length).sum
  /-- Files are checked for their names, -/
  wanted : (¬ ∃ path content, IsOwn system extensions paths walks path content) →
    collection.targets = (walks.flatten.filter (IsWanted extensions ·)).map targetOf
  /-- or one in spite of its name. -/
  own : ∀ {path content}, IsOwn system extensions paths walks path content →
    collection = ⟨[⟨path, content⟩], 0⟩

theorem ownTarget_eq_some_iff {target : Target} :
    (match paths with | [path] => ownTarget? system path | _ => none) = some target ↔
      ∃ path place content, paths = [path] ∧
      system.resolve path = .ok ⟨place, .regular content⟩ ∧
        target = ⟨path, content⟩ := by
  constructor
  · intro own
    split at own
    next path =>
      unfold ownTarget? at own
      split at own
      next place content resolves =>
        cases own
        exact ⟨path, place, content, rfl, resolves, rfl⟩
      next => cases own
    next => cases own
  · rintro ⟨path, place, content, rfl, resolves, rfl⟩
    simp only [ownTarget?, resolves]

theorem IsOwn.walks_eq {content : Except FileError String}
    (isOwn : IsOwn system extensions paths walks path content)
    (areWalks : List.Forall₂ system.Walks paths walks) :
    ∃ found, walks = [[found]] := by
  obtain ⟨rfl, ⟨place, resolves⟩, _⟩ := isOwn
  cases areWalks with
  | cons isWalk others =>
      cases others
      obtain ⟨found, rfl⟩ := isWalk.eq_singleton resolves
      exact ⟨found, rfl⟩

theorem collects_own {content : Except FileError String}
    (isOwn : IsOwn system extensions paths walks path content)
    (areWalks : List.Forall₂ system.Walks paths walks) :
    Collects system extensions paths walks
      ⟨[⟨path, content⟩],
        (walks.flatten.filter (¬ IsWanted extensions ·)).length - 1⟩ := by
  obtain ⟨found, single⟩ := isOwn.walks_eq areWalks
  have passed : (walks.flatten.filter (¬ IsWanted extensions ·)).length = 1 := by
    rw [List.filter_eq_self.mpr fun found member =>
      decide_eq_true (isOwn.unwanted found member), single]
    rfl
  rw [passed]
  refine ⟨by rw [single]; rfl, fun other => absurd ⟨path, content, isOwn⟩ other,
    fun {path' content'} isOwn' => ?_⟩
  obtain ⟨place, resolves⟩ := isOwn.isFile
  obtain ⟨place', resolves'⟩ := isOwn'.isFile
  cases isOwn.only.symm.trans isOwn'.only
  cases resolves.symm.trans resolves'
  rfl

theorem collects_wanted
    (other : ¬ ∃ path content, IsOwn system extensions paths walks path content) :
    Collects system extensions paths walks
      ⟨(walks.flatten.filter (IsWanted extensions ·)).map targetOf,
        (walks.flatten.filter (¬ IsWanted extensions ·)).length⟩ where
  counted := by
    rw [List.length_map, ← List.length_flatten]
    simp only [decide_not]
    exact (List.length_eq_length_filter_add (IsWanted extensions ·)).symm
  wanted _ := rfl
  own isOwn := absurd ⟨_, _, isOwn⟩ other

/-- Files are collected if every path leads somewhere and all that is to be opened there
can be. Then none is lost. -/
theorem collect_loses_none (ordered : system.root.IsOrdered) :
    ((∃ collection, collect system extensions paths = .ok collection) ↔
        ∀ path ∈ paths, Finds system extensions path) ∧
      ∀ collection, collect system extensions paths = .ok collection →
        ∃ walks, List.Forall₂ system.Walks paths walks ∧
          Collects system extensions paths walks collection := by
  constructor
  · have each (path : String) : (∃ part, collectUnder system extensions path = .ok part) ↔
        Finds system extensions path :=
      exists_collectUnder_iff ordered
    simp only [← each, ← exists_forall₂_iff, ← mapM_eq_ok_iff]
    constructor
    · rintro ⟨collection, collected⟩
      obtain ⟨parts, steps, _⟩ := bind_eq_ok.mp collected
      exact ⟨parts, steps⟩
    · rintro ⟨parts, steps⟩
      unfold collect
      rw [steps]
      dsimp only [bind, Except.bind]
      split
      · exact ⟨_, rfl⟩
      · exact ⟨_, rfl⟩
  · intro collection collected
    obtain ⟨parts, steps, rest⟩ := bind_eq_ok.mp collected
    obtain ⟨walks, areWalks, gathers⟩ := exists_walks ordered (mapM_eq_ok_iff.mp steps)
    refine ⟨walks, areWalks, ?_⟩
    dsimp only at rest
    rw [targets_of_gathers gathers, skipped_of_gathers gathers] at rest
    split at rest
    next target nothing own =>
      cases rest
      obtain ⟨path, place, content, only, resolves, rfl⟩ := ownTarget_eq_some_iff.mp own
      refine collects_own ⟨only, ⟨place, resolves⟩,
        fun found member isWanted => ?_⟩ areWalks
      have : found ∈ walks.flatten.filter (IsWanted extensions ·) :=
        List.mem_filter.mpr ⟨member, decide_eq_true isWanted⟩
      rw [List.map_eq_nil_iff.mp nothing] at this
      exact absurd this List.not_mem_nil
    next targets own other =>
      cases rest
      refine collects_wanted ?_
      rintro ⟨path, content, isOwn⟩
      obtain ⟨place, resolves⟩ := isOwn.isFile
      refine other _ ?_
        (ownTarget_eq_some_iff.mpr ⟨path, place, content, isOwn.only, resolves, rfl⟩)
      rw [List.map_eq_nil_iff, List.filter_eq_nil_iff]
      exact fun found member isWanted =>
        isOwn.unwanted found member (of_decide_eq_true isWanted)

def folder : FileSystem where
  root := FileTree.directory []
    |>.insert ["schema", "query.graphql"] (.regular (.ok "\x7b a \x7d"))
    |>.insert ["schema", "notes.txt"] (.regular (.error .notText))
    |>.insert ["schema", "device.graphql"] (.special (.ok ""))
    |>.insert ["schema", "shared.graphql"] (.link "../types")
    |>.insert ["types"] (.regular (.ok "scalar Day"))
  workingDirectory := ["schema"]

deriving instance DecidableEq for Target, Collection

theorem collect_loses_none_in_folder : folder.root.IsOrdered ∧
    (∃ walks, List.Forall₂ folder.Walks [".", "notes.txt"] walks ∧
      Collects folder [".graphql"] [".", "notes.txt"] walks
        ⟨[⟨"/schema/query.graphql", .ok "\x7b a \x7d"⟩, ⟨"/types", .ok "scalar Day"⟩],
          2⟩) ∧
    ∃ walks, List.Forall₂ folder.Walks ["notes.txt"] walks ∧
      Collects folder [".graphql"] ["notes.txt"] walks
        ⟨[⟨"notes.txt", .error .notText⟩], 0⟩ := by
  have ordered : folder.root.IsOrdered := by
    have empty : FileTree.IsOrdered (.directory []) := .directory .nil nofun nofun
    refine ((((empty.insert ?_ ?_).insert ?_ ?_).insert ?_ ?_).insert ?_ ?_).insert ?_ ?_
    all_goals first | decide | exact .leaf nofun
  exact ⟨ordered, (collect_loses_none ordered).2 _ (by decide +kernel),
    (collect_loses_none ordered).2 _ (by decide +kernel)⟩

end Check

end GraphQL
