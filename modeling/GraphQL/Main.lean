import GraphQL.CommandLine.Command

/-! The program: it reads the files that its arguments lead to, carries out the
command, and prints what comes of it. -/

namespace GraphQL

/-- What the system reports, in the words of this library. -/
def FileError.ofIO : IO.Error → FileError
  | .noFileOrDirectory .. | .noSuchThing .. => .notFound
  | .permissionDenied _ code details =>
      .other (details ++ " (os error " ++ toString code ++ ")")
  | error => .other (toString error)

def readContent (place : String) : IO (Except FileError String) := do
  try
    match String.fromUTF8? (← IO.FS.readBinFile place) with
    | some text => return .ok text
    | none => return .error .notText
  catch error => return .error (.ofIO error)

def namesOf (path : String) : List String :=
  (Text.splitString '/' path).filter (· != "")

/-- A copy of some of the files there are. -/
structure Copy where
  root : FileTree
  /-- What links lead to, if it is copied. -/
  followed : List String := []

def Copy.put (copy : Copy) (place : String) (item : FileTree) : Copy :=
  { copy with root := copy.root.insert (namesOf place) item }

/-- Copies what is at a place that no link is above, with all that is in it and that it
leads to. Only a device that is asked for by itself is read. -/
partial def Copy.add (copy : Copy) (readsDevice : Bool) (place : String) : IO Copy := do
  try
    let real ← IO.FS.realPath place
    if namesOf real.toString != namesOf place then
      let copy := copy.put place (.link real.toString)
      if copy.followed.contains real.toString then return copy
      let copy := { copy with followed := real.toString :: copy.followed }
      return ← copy.add readsDevice real.toString
    match (← real.metadata).type with
    | .dir =>
        let copy := { copy with root := copy.root.makeDirectory (namesOf place) }
        (← real.readDir).foldlM (fun copy entry =>
          copy.add false (FileTree.joinPath place entry.fileName)) copy
    | .file => return copy.put place (.regular (← readContent place))
    | _ =>
        let content ← if readsDevice then readContent place else pure (.ok "")
        return copy.put place (.special content)
  catch error => return copy.put place (.closed (.ofIO error))

/-- Copies what names lead to from a directory, with the links on the way. -/
def Copy.follow (copy : Copy) (readsDevice : Bool) (directory : String) :
    List String → IO Copy
  | [] => copy.add readsDevice directory
  | name :: names => do
      let place := FileTree.joinPath directory name
      let next ← (IO.FS.realPath place).toBaseIO
      match next with
      | .error error =>
          match FileError.ofIO error with
          | .notFound => return copy
          | error => return copy.put place (.closed error)
      | .ok next =>
          let isLink :=
            name != "." && name != ".." && namesOf next.toString != namesOf place
          let copy := if isLink then copy.put place (.link next.toString) else copy
          copy.follow readsDevice next.toString names

/-- The files that a command reads, in the directory that it is run in. -/
def Command.files (command : Command) : IO FileSystem := do
  let directory := (← IO.currentDir).toString
  let start (path : String) : String :=
    if path.toList.head? = some '/' then "/" else directory
  let empty : Copy := ⟨FileTree.makeDirectory default (namesOf directory), []⟩
  let copy ← match command with
    | .help _ => pure empty
    | .check request => request.paths.foldlM (fun copy path =>
        copy.follow false (start path) (Text.splitString '/' path)) empty
    | .tokens path => empty.follow true (start path) (Text.splitString '/' path)
  return ⟨copy.root, namesOf directory⟩

def usage : String :=
  "Usage: graphql [-v] check [OPTIONS] <FILE_OR_DIR_PATHS>...\n" ++
    "       graphql [-v] tokens <FILE_PATH>"

def runWords (words : List String) : IO UInt32 := do
  match Command.ofWords words with
  | .error .displayHelp | .error .displayVersion =>
      IO.println usage
      return 0
  | .error _ =>
      IO.eprintln usage
      return 2
  | .ok command =>
      match command.run? (← command.files) with
      | none =>
          IO.println usage
          return 0
      | some outcome =>
          outcome.stdout.forM IO.println
          outcome.stderr.forM IO.eprintln
          return if outcome.succeeded then 0 else 1

end GraphQL

def main (words : List String) : IO UInt32 :=
  GraphQL.runWords words
