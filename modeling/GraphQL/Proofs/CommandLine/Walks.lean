import GraphQL.Proofs.CommandLine.Files
import Mathlib.Data.List.Forall2
import Mathlib.Data.List.Sort

/-! Walks below a path.

A walk comes upon every file to which entries of directories lead, with links among them,
and upon each once, in the order of the names. It ends if all that it has to open can be
opened. -/

namespace GraphQL

open Text
open FileTree (joinPath pathLimit)

/-! ## Steps on lists -/

theorem mapM_eq_ok_iff {ε α β : Type} {step : α → Except ε β} {given : List α}
    {results : List β} :
    given.mapM step = .ok results ↔
      List.Forall₂ (fun value result => step value = .ok result) given results := by
  induction given generalizing results with
  | nil =>
      rw [List.mapM_nil, List.forall₂_nil_left_iff]
      exact ⟨fun equal => by cases equal; rfl, fun equal => by rw [equal]; rfl⟩
  | cons value given induction =>
      rw [List.mapM_cons, List.forall₂_cons_left_iff, bind_eq_ok]
      constructor
      · rintro ⟨result, first, rest⟩
        obtain ⟨results, others, equal⟩ := bind_eq_ok.mp rest
        cases equal
        exact ⟨result, results, first, induction.mp others, rfl⟩
      · rintro ⟨result, results, first, others, rfl⟩
        exact ⟨result, first, bind_eq_ok.mpr ⟨results, induction.mpr others, rfl⟩⟩

theorem exists_forall₂_iff {α β : Type} {relation : α → β → Prop} {given : List α} :
    (∃ results, List.Forall₂ relation given results) ↔
      ∀ value ∈ given, ∃ result, relation value result := by
  induction given with
  | nil => exact ⟨fun _ => nofun, fun _ => ⟨[], .nil⟩⟩
  | cons value given induction =>
      rw [List.forall_mem_cons, ← induction]
      constructor
      · rintro ⟨_, all⟩
        cases all with
        | cons first others => exact ⟨⟨_, first⟩, _, others⟩
      · rintro ⟨⟨result, first⟩, results, others⟩
        exact ⟨result :: results, .cons first others⟩

theorem mem_flatten_iff_of_forall₂ {α β : Type} {relation : α → List β → Prop}
    {given : List α}
    {results : List (List β)} {holds : α → β → Prop}
    (all : List.Forall₂ relation given results)
    (each : ∀ {value result}, relation value result → ∀ item, item ∈ result ↔
      holds value item)
    (item : β) : item ∈ results.flatten ↔ ∃ value ∈ given, holds value item := by
  induction all with
  | nil => simp
  | cons first _ induction =>
      rw [List.flatten_cons, List.mem_append, each first, induction,
        List.exists_mem_cons_iff]

namespace FileSystem

variable {system : FileSystem} {path name : String} {place there next : Resolved}
  {names front above : List String} {entries : List (String × FileTree)} {item : FileTree}
  {room : Nat} {found : Found} {walk : List Found}

/-! ## Where walks lead -/

/-- From a place that a path leads to, the names lead on to another. Links are followed by
the path that has led to them. -/
inductive Reaches (system : FileSystem) :
    String → Resolved → List String → Resolved → Prop
  | here {path : String} {place : Resolved} : Reaches system path place [] place
  | inside {path name : String} {above names : List String}
      {entries : List (String × FileTree)} {item : FileTree} {there : Resolved} :
      (name, item) ∈ entries → item.isLink = false →
      Reaches system (joinPath path name) ⟨above ++ [name], item⟩ names there →
      Reaches system path ⟨above, .directory entries⟩ (name :: names) there
  | through {path name target : String} {above names : List String}
      {entries : List (String × FileTree)} {next there : Resolved} :
      (name, .link target) ∈ entries → system.resolve (joinPath path name) = .ok next →
      Reaches system (joinPath path name) next names there →
      Reaches system path ⟨above, .directory entries⟩ (name :: names) there

theorem enter_link {target : String} :
    system.enter path ⟨above, .link target⟩ = system.resolve path := rfl

theorem enter_of_isLink_eq_false (other : item.isLink = false) :
    system.enter path ⟨above, item⟩ = .ok ⟨above, item⟩ := by
  cases item <;> first | rfl | cases other

theorem reaches_cons_iff :
    system.Reaches path ⟨above, .directory entries⟩ (name :: names) there ↔
    ∃ item next, (name, item) ∈ entries ∧
      system.enter (joinPath path name) ⟨above ++ [name], item⟩ = .ok next ∧
      system.Reaches (joinPath path name) next names there := by
  constructor
  · intro reaches
    cases reaches with
    | inside member other reaches =>
        exact ⟨_, _, member, enter_of_isLink_eq_false other, reaches⟩
    | through member resolves reaches => exact ⟨_, _, member, resolves, reaches⟩
  · rintro ⟨item, next, member, entered, reaches⟩
    cases isLink : item.isLink with
    | false =>
        obtain rfl := Except.ok.inj ((enter_of_isLink_eq_false isLink).symm.trans entered)
        exact .inside member isLink reaches
    | true =>
        cases item with
        | link target =>
            rw [enter_link] at entered
            exact .through member entered reaches
        | _ => cases isLink

theorem Reaches.leadsTo (reaches : system.Reaches path place names there)
    (leads : system.root.LeadsTo place.path place.item) :
    system.root.LeadsTo there.path there.item := by
  induction reaches with
  | here => exact leads
  | inside member _ _ induction => exact induction (leads.snoc member)
  | through _ resolves _ induction => exact induction (leadsTo_of_resolve resolves)

/-- All that has to be opened on a walk can be opened. -/
structure IsOpen (system : FileSystem) (path : String) (place : Resolved) : Prop where
  not_closed {names above : List String} {error : FileError} :
    ¬ system.Reaches path place names ⟨above, .closed error⟩
  short {names above : List String} {entries : List (String × FileTree)} :
    system.Reaches path place names ⟨above, .directory entries⟩ →
      (names.foldl joinPath path).utf8ByteSize < pathLimit
  linked {names above : List String} {entries : List (String × FileTree)}
    {name target : String} :
    system.Reaches path place names ⟨above, .directory entries⟩ →
      (name, .link target) ∈ entries →
      ∃ next, system.resolve (joinPath (names.foldl joinPath path) name) = .ok next

theorem isOpen_of_leaf (notClosed : ∀ error, item ≠ .closed error)
    (notDirectory : ∀ entries, item ≠ .directory entries) :
    system.IsOpen path ⟨above, item⟩ where
  not_closed := by
    intro names above error reaches
    cases reaches with
    | here => exact notClosed _ rfl
    | inside | through => exact notDirectory _ rfl
  short reaches := by
    cases reaches with
    | here | inside | through => exact absurd rfl (notDirectory _)
  linked reaches := by
    cases reaches with
    | here | inside | through => exact absurd rfl (notDirectory _)

theorem IsOpen.below (isOpen : system.IsOpen path ⟨above, .directory entries⟩)
    {name : String} (member : (name, item) ∈ entries) {next : Resolved}
    (entered : system.enter (joinPath path name) ⟨above ++ [name], item⟩ = .ok next) :
    system.IsOpen (joinPath path name) next := by
  have onward {names there}
      (reaches : system.Reaches (joinPath path name) next names there) :
      system.Reaches path ⟨above, .directory entries⟩ (name :: names) there :=
    reaches_cons_iff.mpr ⟨item, next, member, entered, reaches⟩
  refine ⟨fun reaches => isOpen.not_closed (onward reaches), fun reaches => ?_,
    fun reaches member => ?_⟩
  · have short := isOpen.short (onward reaches)
    exact short
  · have linked := isOpen.linked (onward reaches) member
    exact linked

theorem isOpen_of_entries (short : path.utf8ByteSize < pathLimit)
    (others : ∀ entry ∈ entries, ∃ next,
      system.enter (joinPath path entry.1) ⟨above ++ [entry.1], entry.2⟩ = .ok next ∧
        system.IsOpen (joinPath path entry.1) next) :
    system.IsOpen path ⟨above, .directory entries⟩ := by
  -- The first name leads to an entry, from which it is known for the other names.
  have onward {name names there}
      (reaches : system.Reaches path ⟨above, .directory entries⟩ (name :: names) there) :
      ∃ next, system.IsOpen (joinPath path name) next ∧
        system.Reaches (joinPath path name) next names there := by
    obtain ⟨item, next, member, entered, reaches⟩ := reaches_cons_iff.mp reaches
    obtain ⟨next', entered', isOpen⟩ := others _ member
    obtain rfl := Except.ok.inj (entered.symm.trans entered')
    exact ⟨next, isOpen, reaches⟩
  refine ⟨fun {names} _ _ reaches => ?_, fun {names} _ _ reaches => ?_,
    fun {names} _ _ _ _ reaches member => ?_⟩
  · cases names with
    | nil => cases reaches
    | cons name names =>
        obtain ⟨next, isOpen, reaches⟩ := onward reaches
        exact isOpen.not_closed reaches
  · cases names with
    | nil => exact short
    | cons name names =>
        obtain ⟨next, isOpen, reaches⟩ := onward reaches
        have short := isOpen.short reaches
        exact short
  · cases names with
    | nil =>
        cases reaches
        obtain ⟨next, entered, _⟩ := others _ member
        rw [enter_link] at entered
        exact ⟨next, entered⟩
    | cons name names =>
        obtain ⟨next, isOpen, reaches⟩ := onward reaches
        have linked := isOpen.linked reaches member
        exact linked

theorem isOpen_directory_iff : system.IsOpen path ⟨above, .directory entries⟩ ↔
    path.utf8ByteSize < pathLimit ∧ ∀ entry ∈ entries, ∃ next,
      system.enter (joinPath path entry.1) ⟨above ++ [entry.1], entry.2⟩ = .ok next ∧
        system.IsOpen (joinPath path entry.1) next := by
  refine ⟨fun isOpen => ⟨isOpen.short .here, ?_⟩, fun ⟨short, others⟩ =>
    isOpen_of_entries short others⟩
  rintro ⟨name, item⟩ member
  obtain ⟨next, entered⟩ :
      ∃ next, system.enter (joinPath path name) ⟨above ++ [name], item⟩ = .ok next := by
    cases item with
    | link target =>
        have linked := isOpen.linked .here member
        exact linked
    | _ => exact ⟨_, enter_of_isLink_eq_false rfl⟩
  exact ⟨next, entered, isOpen.below member entered⟩

/-! ## What walks come upon -/

/-- What a walk comes upon behind one entry of a directory -/
def IsPart (system : FileSystem) (room : Nat) (path : String) (above front : List String)
    (entry : String × FileTree) (part : List Found) : Prop :=
  ∃ next, system.enter (joinPath path entry.1) ⟨above ++ [entry.1], entry.2⟩ = .ok next ∧
    system.walk room (joinPath path entry.1) (front ++ [entry.1]) next = .ok part

/-- A walk through a directory is made of walks from all its entries. -/
theorem walk_directory_eq_ok_iff :
    system.walk room path front ⟨above, .directory entries⟩ = .ok walk ↔
      path.utf8ByteSize < pathLimit ∧ ∃ room', room = room' + 1 ∧
        ∃ parts, List.Forall₂ (system.IsPart room' path above front) entries parts ∧
          walk = parts.flatten := by
  cases room with
  | zero =>
      constructor
      · intro walked
        cases walked
      · rintro ⟨_, room', equal, _⟩
        cases equal
  | succ room =>
      rw [FileSystem.walk]
      split_ifs with long
      · constructor
        · intro walked
          cases walked
        · exact fun ⟨short, _⟩ => absurd long (Nat.not_le_of_lt short)
      · simp only [bind_eq_ok, mapM_eq_ok_iff]
        constructor
        · rintro ⟨parts, all, equal⟩
          cases equal
          exact ⟨Nat.lt_of_not_le long, room, rfl, parts, all, rfl⟩
        · rintro ⟨_, room', equal, parts, all, rfl⟩
          cases equal
          exact ⟨parts, all, rfl⟩

/-- The file is reached from the place, and the names are told behind those in front. -/
def ComesUpon (system : FileSystem) (path : String) (place : Resolved)
    (front : List String) (found : Found) : Prop :=
  ∃ names, found.names = front ++ names ∧
    system.Reaches path place names ⟨found.place, .regular found.content⟩

theorem comesUpon_directory_iff :
    system.ComesUpon path ⟨above, .directory entries⟩ front found ↔
    ∃ entry ∈ entries, ∃ next,
      system.enter (joinPath path entry.1) ⟨above ++ [entry.1], entry.2⟩ = .ok next ∧
        system.ComesUpon (joinPath path entry.1) next (front ++ [entry.1]) found := by
  constructor
  · rintro ⟨names, equal, reaches⟩
    cases names with
    | nil => cases reaches
    | cons name names =>
        obtain ⟨item, next, member, entered, reaches⟩ := reaches_cons_iff.mp reaches
        exact ⟨_, member, next, entered, names, by simp [equal], reaches⟩
  · rintro ⟨⟨name, item⟩, member, next, entered, names, equal, reaches⟩
    exact ⟨name :: names, by
      simp [equal], reaches_cons_iff.mpr ⟨item, next, member, entered, reaches⟩⟩

theorem comesUpon_leaf_iff (other : ∀ entries, item ≠ .directory entries) :
    system.ComesUpon path ⟨above, item⟩ front found ↔
      item = .regular found.content ∧ found.names = front ∧ found.place = above := by
  constructor
  · rintro ⟨names, equal, reaches⟩
    cases reaches with
    | here => exact ⟨rfl, by simpa using equal, rfl⟩
    | inside | through => exact absurd rfl (other _)
  · rintro ⟨rfl, rfl, rfl⟩
    exact ⟨[], (List.append_nil _).symm, .here⟩

theorem walk_leaf (other : ∀ entries, item ≠ .directory entries)
    (walked : system.walk room path front ⟨above, item⟩ = .ok walk) :
    walk.length ≤ 1 ∧ ∀ found, found ∈ walk ↔
      item = .regular found.content ∧ found.names = front ∧ found.place = above := by
  unfold FileSystem.walk at walked
  cases item with
  | directory entries => exact absurd rfl (other entries)
  | closed error => cases walked
  | regular content =>
      cases walked
      refine ⟨Nat.le_refl 1, fun ⟨names, place, content'⟩ => ?_⟩
      rw [List.mem_singleton, Found.mk.injEq, FileTree.regular.injEq]
      tauto
  | special | link =>
      cases walked
      exact ⟨Nat.zero_le 1, fun found => by simp⟩

theorem mem_parts_iff {parts : List (List Found)}
    (upon : ∀ {path front place walk}, system.walk room path front place = .ok walk →
      ∀ found, found ∈ walk ↔ system.ComesUpon path place front found)
    (all : List.Forall₂ (system.IsPart room path above front) entries parts)
    (found : Found) :
    found ∈ parts.flatten ↔ ∃ entry ∈ entries, ∃ next,
      system.enter (joinPath path entry.1) ⟨above ++ [entry.1], entry.2⟩ = .ok next ∧
        system.ComesUpon (joinPath path entry.1) next (front ++ [entry.1]) found := by
  have each {entry : String × FileTree} {part : List Found}
      (isPart : system.IsPart room path above front entry part) (found : Found) :
      found ∈ part ↔ ∃ next,
        system.enter (joinPath path entry.1) ⟨above ++ [entry.1], entry.2⟩ = .ok next ∧
          system.ComesUpon (joinPath path entry.1) next (front ++ [entry.1]) found := by
    obtain ⟨next, entered, walked⟩ := isPart
    rw [upon walked]
    constructor
    · exact fun comes => ⟨next, entered, comes⟩
    · rintro ⟨next', entered', comes⟩
      obtain rfl := Except.ok.inj (entered.symm.trans entered')
      exact comes
  exact mem_flatten_iff_of_forall₂ all each found

theorem mem_walk_iff (walked : system.walk room path front place = .ok walk)
    (found : Found) :
    found ∈ walk ↔ system.ComesUpon path place front found := by
  induction room using Nat.strongRecOn generalizing path front place walk found with
  | ind room induction =>
    obtain ⟨above, item⟩ := place
    by_cases isDirectory : ∃ entries, item = .directory entries
    · obtain ⟨entries, rfl⟩ := isDirectory
      obtain ⟨_, room, rfl, parts, all, rfl⟩ := walk_directory_eq_ok_iff.mp walked
      rw [comesUpon_directory_iff]
      exact mem_parts_iff (induction room (Nat.lt_succ_self room)) all found
    · rw [comesUpon_leaf_iff fun entries equal => isDirectory ⟨entries, equal⟩]
      exact (walk_leaf (fun entries equal => isDirectory ⟨entries, equal⟩) walked).2 found

/-! ## The order of walks -/

theorem append_cons_lt {name name' : String} {names names' : List String}
    (lt : name < name') :
    front ++ name :: names < front ++ name' :: names' := by
  induction front with
  | nil => exact .rel lt
  | cons first front induction => exact .cons induction

theorem ordered_of_enter (ordered : system.root.IsOrdered) (isOrdered : item.IsOrdered)
    (entered : system.enter path ⟨above, item⟩ = .ok next) : next.item.IsOrdered := by
  cases item with
  | link target =>
      rw [enter_link] at entered
      exact ordered.leadsTo (leadsTo_of_resolve entered)
  | _ =>
      cases entered
      exact isOrdered

/-- Every file is come upon once, in the order of the names. -/
theorem pairwise_walk (ordered : system.root.IsOrdered) (isOrdered : place.item.IsOrdered)
    (walked : system.walk room path front place = .ok walk) :
    walk.Pairwise (·.names < ·.names) := by
  induction room using Nat.strongRecOn generalizing path front place walk with
  | ind room induction =>
    obtain ⟨above, item⟩ := place
    by_cases isDirectory : ∃ entries, item = .directory entries
    · obtain ⟨entries, rfl⟩ := isDirectory
      obtain ⟨_, room, rfl, parts, all, rfl⟩ := walk_directory_eq_ok_iff.mp walked
      have inOrder := isOrdered.pairwise
      have each : ∀ entry ∈ entries, entry.2.IsOrdered :=
        fun _ member => (isOrdered.entry member).2
      clear walked isOrdered
      induction all with
      | nil => exact .nil
      | cons first rest behind =>
          obtain ⟨before, inOrder⟩ := List.pairwise_cons.mp inOrder
          obtain ⟨here, below⟩ := List.forall_mem_cons.mp each
          obtain ⟨next, entered, walked⟩ := first
          have isNext := ordered_of_enter ordered here entered
          rw [List.flatten_cons]
          refine List.pairwise_append.mpr
            ⟨induction room (Nat.lt_succ_self room) isNext walked,
              behind inOrder below, ?_⟩
          -- What is behind the first entry has its name in front of the names of the
          -- others.
          intro found member found' member'
          obtain ⟨names, equal, _⟩ := (mem_walk_iff walked found).mp member
          obtain ⟨entry', isEntry, _, _, names', equal', _⟩ :=
            (mem_parts_iff mem_walk_iff rest found').mp member'
          rw [equal, equal', List.append_assoc, List.append_assoc]
          exact append_cons_lt (before entry' isEntry)
    · have few := (walk_leaf (fun entries equal => isDirectory ⟨entries, equal⟩) walked).1
      match walk with
      | [] => exact .nil
      | [found] => exact List.pairwise_singleton _ _

/-! ## The end of walks -/

theorem size_lt_size_joinPath (named : name ≠ "") :
    path.utf8ByteSize < (joinPath path name).utf8ByteSize := by
  have pos : 0 < name.utf8ByteSize :=
    Nat.pos_of_ne_zero fun zero => named (String.utf8ByteSize_eq_zero_iff.mp zero)
  have slash : "/".utf8ByteSize = 1 := rfl
  unfold joinPath
  split
  · rw [String.utf8ByteSize_append]
    omega
  · rw [String.utf8ByteSize_append, String.utf8ByteSize_append]
    omega

/-- With room for all paths that are not too long, there is a walk through
all that is open. -/
theorem exists_walk_iff (ordered : system.root.IsOrdered)
    (isOrdered : place.item.IsOrdered) (enough : pathLimit ≤ path.utf8ByteSize + room) :
    (∃ walk, system.walk room path front place = .ok walk) ↔
      system.IsOpen path place := by
  induction room using Nat.strongRecOn generalizing path front place with
  | ind room induction =>
    obtain ⟨above, item⟩ := place
    cases item with
    | closed error =>
        rw [FileSystem.walk]
        exact ⟨nofun, fun isOpen => absurd .here isOpen.not_closed⟩
    | regular | special | link =>
        rw [FileSystem.walk]
        exact ⟨fun _ => isOpen_of_leaf nofun nofun, fun _ => ⟨_, rfl⟩⟩
    | directory entries =>
        have below {room' : Nat} (smaller : room = room' + 1) {entry : String × FileTree}
            (member : entry ∈ entries) :
            (∃ part, system.IsPart room' path above front entry part) ↔
              ∃ next, system.enter (joinPath path entry.1) ⟨above ++ [entry.1], entry.2⟩ =
                .ok next ∧
                system.IsOpen (joinPath path entry.1) next := by
          obtain ⟨named, isItem⟩ := isOrdered.entry member
          have longer : path.utf8ByteSize < (joinPath path entry.1).utf8ByteSize :=
            size_lt_size_joinPath named
          unfold IsPart
          rw [exists_comm]
          refine exists_congr fun next => ?_
          rw [exists_and_left]
          refine and_congr_right fun entered => ?_
          exact induction room' (by omega)
            (ordered_of_enter ordered isItem entered) (by omega)
        simp only [walk_directory_eq_ok_iff, isOpen_directory_iff]
        constructor
        · rintro ⟨_, short, room', smaller, parts, all, _⟩
          exact ⟨short, fun entry member =>
            (below smaller member).mp (exists_forall₂_iff.mp ⟨parts, all⟩ entry member)⟩
        · rintro ⟨short, others⟩
          obtain ⟨room', smaller⟩ :=
            Nat.exists_eq_succ_of_ne_zero (show room ≠ 0 by omega)
          obtain ⟨parts, all⟩ := exists_forall₂_iff.mpr fun entry member =>
            (below smaller member).mpr (others entry member)
          exact ⟨_, short, room', smaller, parts, all, rfl⟩

/-! ## Walks from a path -/

/-- The path leads somewhere, and all that is to be opened there can be. -/
def Opens (system : FileSystem) (path : String) : Prop :=
  ∃ place, system.resolve path = .ok place ∧ system.IsOpen path place

/-- The list has every file at or below the place that the path leads to, each for every
row of names that leads to it from there, in the order of the names. -/
def Walks (system : FileSystem) (path : String) (walk : List Found) : Prop :=
  ∃ place, system.resolve path = .ok place ∧
    (∀ found, found ∈ walk ↔ ∃ names, found.names =
      lastName (splitString '/' path) :: names ∧
      system.Reaches path place names ⟨found.place, .regular found.content⟩) ∧
    (∀ found ∈ walk, system.root.LeadsTo found.place (.regular found.content)) ∧
    walk.Pairwise (·.names < ·.names)

theorem eq_of_mem_iff {first second : List Found}
    (inOrder : first.Pairwise (·.names < ·.names))
    (inOrder' : second.Pairwise (·.names < ·.names))
    (same : ∀ found, found ∈ first ↔ found ∈ second) : first = second := by
  have : Std.Irrefl fun first second : Found => first.names < second.names :=
    ⟨fun _ => List.lt_irrefl _⟩
  have : Std.Antisymm fun first second : Found => first.names < second.names :=
    ⟨fun _ _ less greater => absurd greater (List.lt_asymm less)⟩
  exact inOrder.eq_of_mem_iff inOrder' same

theorem filesUnder_eq_ok_iff (ordered : system.root.IsOrdered) :
    system.filesUnder path = .ok walk ↔ system.Opens path ∧ system.Walks path walk := by
  have enough : pathLimit ≤ path.utf8ByteSize + (pathLimit - path.utf8ByteSize) := by
    omega
  unfold filesUnder
  rw [bind_eq_ok]
  constructor
  · rintro ⟨place, resolves, walked⟩
    have leads := leadsTo_of_resolve resolves
    have isOrdered := ordered.leadsTo leads
    refine ⟨⟨place, resolves,
      (exists_walk_iff ordered isOrdered enough).mp ⟨walk, walked⟩⟩, place,
      resolves, fun found => mem_walk_iff walked found, fun found member => ?_,
      pairwise_walk ordered isOrdered walked⟩
    obtain ⟨names, _, reaches⟩ := (mem_walk_iff walked found).mp member
    exact reaches.leadsTo leads
  · rintro ⟨⟨place, resolves, isOpen⟩, place', resolves', members, _, inOrder⟩
    obtain rfl := Except.ok.inj (resolves.symm.trans resolves')
    have isOrdered := ordered.leadsTo (leadsTo_of_resolve resolves)
    obtain ⟨walk', walked⟩ :
        ∃ walk, system.walk _ path [lastName (splitString '/' path)] place =
        .ok walk := (exists_walk_iff ordered isOrdered enough).mpr isOpen
    obtain rfl : walk = walk' :=
      eq_of_mem_iff inOrder (pairwise_walk ordered isOrdered walked)
        fun found => (members found).trans (mem_walk_iff walked found).symm
    exact ⟨place, resolves, walked⟩

theorem exists_walks_of_opens (ordered : system.root.IsOrdered)
    (opens : system.Opens path) :
    ∃ walk, system.Walks path walk := by
  obtain ⟨place, resolves, isOpen⟩ := opens
  have isOrdered := ordered.leadsTo (leadsTo_of_resolve resolves)
  have enough : pathLimit ≤ path.utf8ByteSize + (pathLimit - path.utf8ByteSize) := by
    omega
  obtain ⟨walk, walked⟩ := (exists_walk_iff ordered isOrdered enough).mpr isOpen
  have listed : system.filesUnder path = .ok walk :=
    bind_eq_ok.mpr ⟨place, resolves, walked⟩
  exact ⟨walk, ((filesUnder_eq_ok_iff ordered).mp listed).2⟩

theorem Walks.eq_singleton (walks : system.Walks path walk)
    {content : Except FileError String}
    (resolves : system.resolve path = .ok ⟨above, .regular content⟩) :
    ∃ found, walk = [found] := by
  obtain ⟨place, resolves', members, _, inOrder⟩ := walks
  cases resolves.symm.trans resolves'
  have only (found : Found) :
      found ∈ walk ↔ found = ⟨[lastName (splitString '/' path)], above, content⟩ := by
    rw [members]
    constructor
    · rintro ⟨names, equal, reaches⟩
      obtain ⟨names', place', content'⟩ := found
      cases reaches
      cases equal
      rfl
    · rintro rfl
      exact ⟨[], rfl, .here⟩
  exact ⟨_, eq_of_mem_iff inOrder (List.pairwise_singleton _ _) fun found =>
    (only found).trans List.mem_singleton.symm⟩

end FileSystem

end GraphQL
