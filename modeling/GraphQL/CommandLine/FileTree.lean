import GraphQL.Assoc
import GraphQL.Text.Line
import GraphQL.Text.Split

/-! Files and directories, as far as a command reads them. -/

namespace GraphQL

open Text

/-- Why a path leads to no text. -/
inductive FileError where
  | notFound
  | notADirectory
  | isADirectory
  | nameTooLong
  | tooManyLinks
  /-- The path holds the character U+0000. -/
  | nulCharacter
  /-- The file is there, but is not encoded as UTF-8. -/
  | notText
  /-- Anything else that the system reports, in its own words. -/
  | other (message : String)
  deriving DecidableEq, Repr

def FileError.message : FileError → String
  | notFound => "No such file or directory (os error 2)"
  | notADirectory => "Not a directory (os error 20)"
  | isADirectory => "Is a directory (os error 21)"
  | nameTooLong => "File name too long (os error 36)"
  | tooManyLinks => "Too many levels of symbolic links (os error 40)"
  | nulCharacter => "file name contained an unexpected NUL byte"
  | notText => "stream did not contain valid UTF-8"
  | other message => message

/-- What a directory can hold. The content of a file is what comes of reading it. -/
inductive FileTree where
  | regular (content : Except FileError String)
  /-- Neither a file nor a directory, such as a device. -/
  | special (content : Except FileError String)
  /-- Stands for what another path leads to, from the directory of the link. -/
  | link (target : String)
  /-- Nothing can be done with it. -/
  | closed (error : FileError)
  | directory (entries : List (String × FileTree))

instance : Inhabited FileTree := ⟨.directory []⟩

namespace FileTree

/-! ## Contents -/

/-- A file with a text, unless it is not encoded as UTF-8. -/
def file : (text : Option String) → FileTree
  | some text => regular (.ok text)
  | none => regular (.error .notText)

def isLink : FileTree → Bool
  | link _ => true
  | _ => false

/-- Changes what is at a path. Directories on the way to it are made if they are
missing, and so is an empty one to change. -/
def modify (change : FileTree → FileTree) : FileTree → (path : List String) → FileTree
  | tree, [] => change tree
  | directory entries, name :: path =>
      let below := (Assoc.find? name entries).getD default
      directory (Assoc.insertSorted name (modify change below path) entries)
  | _, name :: path => directory [(name, modify change default path)]

def insert (tree : FileTree) (path : List String) (item : FileTree) : FileTree :=
  tree.modify (fun _ => item) path

/-- Makes a directory at a path unless there is one. -/
def makeDirectory (tree : FileTree) (path : List String) : FileTree :=
  tree.modify (fun | directory entries => directory entries | _ => default) path

def nameLimit : Nat := 255

/-- Paths are shorter than this, in bytes. -/
def pathLimit : Nat := 4096

/-- Not more links than this are followed on a path. -/
def linkLimit : Nat := 40

/-- The path of a name in the directory at a path. -/
def joinPath (path name : String) : String :=
  if path.toList.getLast? = some '/' then path ++ name else path ++ "/" ++ name

end FileTree

/-! ## Paths -/

/-- All files, and the directory that paths start from unless they start with a
slash. -/
structure FileSystem where
  root : FileTree
  workingDirectory : List String

namespace FileSystem

open FileTree (joinPath pathLimit)

/-- An item with the directories above it, nearest first, each with the name that
leads down from it. -/
structure Trail where
  above : List (String × FileTree)
  current : FileTree

/-- An item with the names that lead to it from the root. -/
structure Resolved where
  path : List String
  item : FileTree

def Trail.resolved (trail : Trail) : Resolved :=
  ⟨(trail.above.map (·.1)).reverse, trail.current⟩

def Trail.up (trail : Trail) : Trail :=
  match trail.above with
  | [] => trail
  | (_, parent) :: above => ⟨above, parent⟩

/-- One step along a path. Names are looked up in directories only, and so are
the empty name, one dot and two dots. -/
def Trail.step (trail : Trail) (name : String) : Except FileError Trail :=
  match trail.current with
  | .directory entries =>
      if name = "" ∨ name = "." then .ok trail
      else if name = ".." then .ok trail.up
      else if FileTree.nameLimit < name.utf8ByteSize then .error .nameTooLong
      else
        match Assoc.find? name entries with
        | some item => .ok ⟨(name, trail.current) :: trail.above, item⟩
        | none => .error .notFound
  | .closed error => .error error
  | _ => .error .notADirectory

def start (system : FileSystem) (directory : Trail) (path : String) : Trail :=
  if path.toList.head? = some '/' then ⟨[], system.root⟩ else directory

/-- Steps along names up to a link. There it is told which names are left from
the directory of the link on. -/
def along (system : FileSystem) (atLink : Trail → List String → Except FileError Trail) :
    Trail → List String → Except FileError Trail
  | trail, [] => .ok trail
  | trail, name :: names => do
      let next ← trail.step name
      match next.current with
      | .link target =>
          atLink (system.start trail target) (splitString '/' target ++ names)
      | _ => system.along atLink next names

/-- Steps along names and as many links. -/
def follow (system : FileSystem) :
    (links : Nat) → Trail → List String → Except FileError Trail
  | 0 => system.along fun _ _ => .error .tooManyLinks
  | links + 1 => system.along (system.follow links)

def resolve (system : FileSystem) (path : String) : Except FileError Resolved := do
  if path.toList.contains '\x00' then throw .nulCharacter
  if path = "" then throw .notFound
  if pathLimit ≤ path.utf8ByteSize then throw .nameTooLong
  let start ←
    if path.toList.head? = some '/' then pure ⟨[], system.root⟩
    else system.workingDirectory.foldlM Trail.step ⟨[], system.root⟩
  return (← system.follow FileTree.linkLimit start (splitString '/' path)).resolved

/-- The text that a path leads to. -/
def readText (system : FileSystem) (path : String) : Except FileError String := do
  match (← system.resolve path).item with
  | .regular content | .special content => content
  | .directory _ => throw .isADirectory
  | .closed error => throw error
  | .link _ => throw .tooManyLinks

def pathText (path : List String) : String :=
  if path.isEmpty then "/" else String.join (path.map ("/" ++ ·))

def lastName (path : List String) : String :=
  path.getLast?.getD ""

/-! ## Walks -/

/-- A file that a walk comes upon. -/
structure Found where
  /-- The name that the walk began with, and those that led down from there. -/
  names : List String
  /-- The names that lead to it from the root, with no link among them. -/
  place : List String
  content : Except FileError String

/-- Where a walk goes on from an entry of a directory, whose path is given too. -/
def enter (system : FileSystem) (path : String) (entry : Resolved) :
    Except FileError Resolved :=
  match entry.item with
  | .link _ => system.resolve path
  | _ => .ok entry

/-- All files at and below a place that a path leads to, those of one directory in
the order of its entries. Directories are opened by their paths, and each is longer
than the one above it, so that there is only so much room. A link to a directory
that it is in leads nowhere but to too long paths or too many links. -/
def walk (system : FileSystem) (room : Nat) (path : String) (names : List String)
    (place : Resolved) : Except FileError (List Found) :=
  match place.item with
  | .regular content => .ok [⟨names, place.path, content⟩]
  | .special _ | .link _ => .ok []
  | .closed error => .error error
  | .directory entries =>
      match room with
      | 0 => .error .nameTooLong
      | room + 1 =>
          if pathLimit ≤ path.utf8ByteSize then .error .nameTooLong
          else do
            let parts ← entries.mapM fun (name, item) => do
              let below := joinPath path name
              let next ← system.enter below ⟨place.path ++ [name], item⟩
              system.walk room below (names ++ [name]) next
            return parts.flatten

def filesUnder (system : FileSystem) (path : String) : Except FileError (List Found) := do
  let room := pathLimit - path.utf8ByteSize
  system.walk room path [lastName (splitString '/' path)] (← system.resolve path)

end FileSystem

/-- What follows the last point in a file name. A name has no extension if no
point is in it, or only the one that it begins with. -/
def extension? (name : String) : Option String :=
  let reversed := name.toList.reverse
  match reversed.dropWhile (· != '.') with
  | [] | [_] => none
  | _ => some (String.ofList (reversed.takeWhile (· != '.')).reverse)

example : extension? "a.tar.graphql" = some "graphql" := by decide +kernel
example : extension? ".graphql" = none := by decide +kernel
example : extension? "dot." = some "" := by decide +kernel

end GraphQL
