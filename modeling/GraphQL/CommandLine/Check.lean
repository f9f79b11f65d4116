import GraphQL.CommandLine.FileTree
import GraphQL.CommandLine.Outcome
import GraphQL.CommandLine.Usage
import GraphQL.Parse

/-! Parsing many files and reporting on those that fail. -/

namespace GraphQL

namespace Check

open FileSystem (Found lastName pathText)

/-! ## Finding files -/

/-- A file to check, by the name that reports call it, and what comes of reading it. -/
structure Target where
  name : String
  text : Except FileError String
  deriving Repr

structure Collection where
  targets : List Target
  skipped : Nat
  deriving Repr

/-- Extensions are given with or without leading points. -/
def trimPoints (given : String) : String :=
  String.ofList (given.toList.dropWhile (· == '.'))

def hasExtension (extensions : List String) (name : String) : Bool :=
  (extension? name).any (extensions.map trimPoints).contains

/-- A file found by a walk, called by its place, unless that is too long to write. -/
def targetOf? (found : Found) : Except FileError Target :=
  let name := pathText found.place
  if FileTree.pathLimit ≤ name.utf8ByteSize then .error .nameTooLong
  else .ok ⟨name, found.content⟩

/-- The files at or under a path, if all of it can be walked. -/
def collectUnder (system : FileSystem) (extensions : List String) (path : String) :
    Except FileError Collection := do
  let (wanted, others) := (← system.filesUnder path).partition fun found =>
    hasExtension extensions (lastName found.names)
  return ⟨← wanted.mapM targetOf?, others.length⟩

/-- A file that is given by its own path, called just that. -/
def ownTarget? (system : FileSystem) (path : String) : Option Target :=
  match system.resolve path with
  | .ok ⟨_, .regular content⟩ => some ⟨path, content⟩
  | _ => none

/-- The files at or under all the paths. If there are none to check, but the only
path leads to a file, that file is checked whatever its extension. -/
def collect (system : FileSystem) (extensions paths : List String) :
    Except FileError Collection := do
  let parts ← paths.mapM (collectUnder system extensions)
  let targets := parts.flatMap Collection.targets
  let skipped := parts.foldl (fun sum part => sum + part.skipped) 0
  let own := match paths with
    | [path] => ownTarget? system path
    | _ => none
  match targets, own with
  | [], some target => return ⟨[target], skipped - 1⟩
  | _, _ => return ⟨targets, skipped⟩

/-! ## Checking files -/

structure Statistics where
  typeSystemDefinitions : Nat := 0
  operations : Nat := 0
  fragments : Nat := 0
  deriving DecidableEq, Repr

namespace Statistics

def add (first second : Statistics) : Statistics where
  typeSystemDefinitions := first.typeSystemDefinitions + second.typeSystemDefinitions
  operations := first.operations + second.operations
  fragments := first.fragments + second.fragments

/-- What is neither an operation nor a fragment describes a type system. -/
def ofDocument {L : Type} (document : Document L) : Statistics :=
  let operations := document.operations.length
  let fragments := document.fragments.length
  { operations, fragments
    typeSystemDefinitions := document.definitions.length - operations - fragments }

end Statistics

/-- Why a file failed. -/
inductive Problem where
  | invalid (diagnostic : Diagnostic)
  | unreadable (message : String)

def checkTarget (options : ParseOptions) (target : Target) : Except Problem Statistics :=
  match target.text with
  | .error error =>
      .error (.unreadable ("Failed to read " ++ target.name ++ ": " ++ error.message))
  | .ok body =>
      match parse { body, name := target.name } options with
      | .ok document => .ok (.ofDocument document)
      | .error diagnostic => .error (.invalid diagnostic)

/-! ## Reporting -/

def Problem.text : Problem → String
  | invalid diagnostic => diagnostic.detailed
  | unreadable message => message

def Problem.toJson : Problem → Json
  | invalid diagnostic => diagnostic.toJson
  | unreadable message => .object [("message", .string message)]

structure Failed where
  target : Target
  problem : Problem

def Failed.toJson (failed : Failed) : Json :=
  .object [("file", .string failed.target.name),
    ("errors", .array [failed.problem.toJson])]

def failures (results : List (Target × Except Problem Statistics)) : List Failed :=
  results.filterMap fun (target, result) =>
    match result with
    | .ok _ => none
    | .error problem => some ⟨target, problem⟩

def totals (results : List (Target × Except Problem Statistics)) : Statistics :=
  (results.filterMap (·.2.toOption)).foldl Statistics.add {}

def failureText (failed : List Failed) (count : Nat) : String :=
  "\n\n".intercalate (failed.map (·.problem.text)) ++ "\n\n❌ " ++
    toString failed.length ++
    " of " ++ toString count ++ " files failed to parse."

def failureJson (failed : List Failed) : String :=
  (Json.array (failed.map Failed.toJson)).sortKeys.pretty

def successText (count skipped : Nat) (totals : Statistics) : String :=
  "✅ All GraphQL parsed successfully:\n" ++
    "  * Parsed " ++ toString count ++ " files.\n" ++
    "  * Skipped " ++ toString skipped ++ " non-graphql files.\n" ++
    "  * Found " ++ toString totals.typeSystemDefinitions ++
    " type system definitions.\n" ++
    "  * Found " ++ toString totals.operations ++ " operations.\n" ++
    "  * Found " ++ toString totals.fragments ++ " fragments."

def report (request : CheckRequest) (collection : Collection) : Outcome :=
  let results := collection.targets.map fun target =>
    (target, checkTarget request.options target)
  let failed := failures results
  if failed.isEmpty then
    .success (successText results.length collection.skipped (totals results))
  else
    match request.format with
    | .text => .failure (failureText failed results.length)
    | .json => .failureReport (failureJson failed)

/-- Checks all files under the paths of a request. None is checked if one of the
paths leads nowhere. -/
def run (system : FileSystem) (request : CheckRequest) : Outcome :=
  match collect system request.extensions request.paths with
  | .ok collection => report request collection
  | .error _ => .failure "❌ Errors while searching for GraphQL files"

end Check

end GraphQL
