import GraphQL.CommandLine.Check
import GraphQL.Proofs.Locating.Diagnostic
import GraphQL.Proofs.Parsing.Soundness
import Mathlib.Algebra.BigOperators.Group.List.Basic

/-! Reports on many files.

Every file is judged by itself. A report for people and one for programs tell of the same
files, in the order in which they were found, and where none has failed the report counts
what is in them. -/

namespace GraphQL

open ParseOptions (Note)

variable {α : Type}

/-! ## Members of objects -/

namespace Assoc

end Assoc

namespace Json

def member? (key : String) : Json → Option Json
  | .object members => Assoc.find? key members
  | _ => none

end Json

namespace Check

/-! ## Judging files -/

def Target.Parses (options : ParseOptions) (target : Target)
    (document : Document Note) : Prop :=
  ∃ body, target.text = .ok body ∧
    parse { body, name := target.name } options = .ok document

/-- Why the file fails, for people to read -/
inductive Target.FailsWith (options : ParseOptions) (target : Target) : String → Prop
  | unreadable {error : FileError} : target.text = .error error →
      FailsWith options target ("Failed to read " ++ target.name ++ ": " ++ error.message)
  | invalid {body : String} {diagnostic : Diagnostic} : target.text = .ok body →
      parse { body, name := target.name } options = .error diagnostic →
      FailsWith options target diagnostic.detailed

/-- The object names the file and has one error, whose message the text begins with. -/
def Target.IsReportedBy (target : Target) (text : String) (object : Json) : Prop :=
  ∃ error message, object =
    .object [("errors", .array [error]), ("file", .string target.name)] ∧
    error.member? "message" = some (.string message) ∧ message.toList <+: text.toList

/-- What comes of one file: a document, or reasons for people and for programs -/
inductive Verdict where
  | parsed (document : Document Note)
  | failed (text : String) (object : Json)

namespace Verdict

def document? : Verdict → Option (Document Note)
  | parsed document => some document
  | failed .. => none

def text? : Verdict → Option String
  | parsed _ => none
  | failed text _ => some text

def object? : Verdict → Option Json
  | parsed _ => none
  | failed _ object => some object

def Judges (options : ParseOptions) (target : Target) : Verdict → Prop
  | parsed document => target.Parses options document
  | failed text object => target.FailsWith options text ∧ target.IsReportedBy text object

end Verdict

/-- What is reported on a file that has the problem -/
def Problem.verdict (target : Target) (problem : Problem) : Verdict :=
  .failed problem.text (Failed.toJson ⟨target, problem⟩).sortKeys

/-- A file is judged by its text alone. -/
def Target.verdict (options : ParseOptions) (target : Target) : Verdict :=
  match target.text with
  | .error error =>
      (Problem.unreadable
        ("Failed to read " ++ target.name ++ ": " ++ error.message)).verdict target
  | .ok body =>
      match parse { body, name := target.name } options with
      | .ok document => .parsed document
      | .error diagnostic => (Problem.invalid diagnostic).verdict target

namespace Statistics

end Statistics

/-! ## The whole report -/

/-- What is reported in each format on files with those verdicts -/
structure Agrees (options : ParseOptions) (collection : Collection)
    (verdicts : List Verdict) (outcome : ReportFormat → Outcome) : Prop where
  /-- There is a verdict on every file, in order. -/
  judged : List.Forall₂ (Verdict.Judges options) collection.targets verdicts
  succeeded_iff : ∀ format, (outcome format).succeeded = true ↔
    ∀ target ∈ collection.targets, ∃ document, target.Parses options document
  /-- For people there are the texts on the files that failed, and how many
  of all files these are. -/
  text : verdicts.filterMap Verdict.text? ≠ [] →
    (outcome .text).stdout = none ∧ (outcome .text).stderr =
      some ("\n\n".intercalate (verdicts.filterMap Verdict.text?) ++ "\n\n❌ " ++
        toString (verdicts.filterMap Verdict.text?).length ++ " of " ++
        toString collection.targets.length ++ " files failed to parse.")
  /-- For programs there are objects on the same files. -/
  json : verdicts.filterMap Verdict.object? ≠ [] →
    (outcome .json).stderr = none ∧ (outcome .json).stdout =
      some (Json.array (verdicts.filterMap Verdict.object?)).pretty
  length_eq : (verdicts.filterMap Verdict.object?).length =
    (verdicts.filterMap Verdict.text?).length
  /-- If none failed, it is counted what the documents define. -/
  counts : verdicts.filterMap Verdict.text? = [] → ∀ format,
    (outcome format).stderr = none ∧ (outcome format).stdout =
      some ("✅ All GraphQL parsed successfully:\n" ++
        "  * Parsed " ++ toString collection.targets.length ++ " files.\n" ++
        "  * Skipped " ++ toString collection.skipped ++ " non-graphql files.\n" ++
        "  * Found " ++ toString
          ((verdicts.filterMap Verdict.document?).map
            (·.typeSystemDefinitions.length)).sum ++
        " type system definitions.\n" ++
        "  * Found " ++ toString
          ((verdicts.filterMap Verdict.document?).map (·.operations.length)).sum ++
        " operations.\n" ++
        "  * Found " ++ toString
          ((verdicts.filterMap Verdict.document?).map (·.fragments.length)).sum ++
        " fragments.")
  /-- What describes a schema is what is left of the definitions, of which
  there are enough. -/
  left : ∀ document ∈ verdicts.filterMap Verdict.document?,
    document.operations.length + document.fragments.length ≤ document.definitions.length ∧
      document.typeSystemDefinitions.length =
        document.definitions.length - document.operations.length -
          document.fragments.length
  sum_eq : ((verdicts.filterMap Verdict.document?).map
    (·.typeSystemDefinitions.length)).sum +
    ((verdicts.filterMap Verdict.document?).map (·.operations.length)).sum +
    ((verdicts.filterMap Verdict.document?).map (·.fragments.length)).sum =
      ((verdicts.filterMap Verdict.document?).map (·.definitions.length)).sum

section

variable (options : ParseOptions) (targets : List Target)

def results : List (Target × Except Problem Statistics) :=
  targets.map fun target => (target, checkTarget options target)

def verdicts : List Verdict := targets.map (Target.verdict options)

end

section

variable {request : CheckRequest} {collection : Collection}

end

end Check

end GraphQL
