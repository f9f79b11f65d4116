import GraphQL.Diagnostic.Kind
import GraphQL.Json
import GraphQL.Source.Excerpt

/-! Reports on a source. -/

namespace GraphQL

/-- A report, and the places in a source that it is about. -/
structure Diagnostic where
  message : String
  kind : DiagnosticKind
  /-- The source that the places below are in. -/
  source : Option Source := none
  positions : List Nat := []
  /-- The spans of nodes of a syntax tree. -/
  nodeSpans : List Span := []
  extensions : Option (List (String × Json)) := none
  /-- The text of an error that this one comes from. -/
  cause : Option String := none

namespace Diagnostic

/-! ## Making diagnostics -/

def atPosition (message : String) (kind : DiagnosticKind) (source : Source)
    (offset : Nat) :
    Diagnostic :=
  { message, kind, source := some source, positions := [offset] }

/-- A report on nodes of a tree read from `source`. Nodes without a location are
left out, and if none has one the report names no source. -/
def ofNodes (message : String) (source : Source)
    (locations : List (Option Span)) : Diagnostic :=
  let nodeSpans := locations.filterMap id
  { message, kind := .custom, nodeSpans,
    source := if nodeSpans.isEmpty then none else some source }

def withKind (diagnostic : Diagnostic) (kind : DiagnosticKind) : Diagnostic :=
  { diagnostic with kind }

def withCause (diagnostic : Diagnostic) (cause : String) : Diagnostic :=
  { diagnostic with cause := some cause }

/-- Attaches data in place of any attached before. Keys keep their order, but
within the data keys are sorted. -/
def withExtensions (diagnostic : Diagnostic)
    (members : List (String × Json)) : Diagnostic :=
  let extensions := members.foldl (fun kept (key, value) =>
    Assoc.insertLast key value.sortKeys kept) []
  { diagnostic with extensions := some extensions }

def ofLexicalError (source : Source) (error : LexicalError) : Diagnostic :=
  atPosition error.fault.message .lexical source error.offset

/-! ## Reading diagnostics -/

def offsets (diagnostic : Diagnostic) : List Nat :=
  diagnostic.positions ++ diagnostic.nodeSpans.map Span.start

def locations (diagnostic : Diagnostic) : List Location :=
  match diagnostic.source with
  | none => []
  | some source => diagnostic.offsets.map source.locationAt

/-- The message with a prefix for faults of the source itself. -/
def fullMessage (diagnostic : Diagnostic) : String :=
  if diagnostic.kind.isLexical || diagnostic.kind.isSyntactic then
    "Syntax Error: " ++ diagnostic.message
  else diagnostic.message

/-- The report on one line, with its first place. -/
def oneLine (diagnostic : Diagnostic) : String :=
  match diagnostic.source, diagnostic.locations with
  | some source, location :: _ =>
      diagnostic.fullMessage ++ " (" ++ source.name ++ ":" ++ location.text ++ ")"
  | _, _ => diagnostic.fullMessage

def excerptOrNote (source : Source) (location : Location) : String :=
  match source.excerpt location with
  | .ok excerpt => excerpt
  | .error error =>
      source.name ++ "(" ++ location.text ++ ") -> <context unavailable: " ++
        error.message ++ ">"

def detailed (diagnostic : Diagnostic) : String :=
  match diagnostic.source with
  | none => diagnostic.fullMessage
  | some source =>
      "\n\n".intercalate
        (diagnostic.fullMessage :: diagnostic.locations.map (excerptOrNote source))

def locationJson (location : Location) : Json :=
  .object [("line", .integer location.line), ("column", .integer location.column)]

/-- The report as a response to a request gives it. -/
def toJson (diagnostic : Diagnostic) : Json :=
  let locations := diagnostic.locations.map locationJson
  .object
    ([("message", .string diagnostic.fullMessage)] ++
      (if locations.isEmpty then [] else [("locations", .array locations)]) ++
      (diagnostic.extensions.map fun members => ("extensions", .object members)).toList)

end Diagnostic

end GraphQL
