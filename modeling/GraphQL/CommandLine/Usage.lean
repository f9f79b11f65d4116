import GraphQL.ParseOptions
import GraphQL.Text.Split

/-! What the words of a command line ask for.

A word that begins with a minus is a flag, or an option if it takes a value. The
value may be attached after an equals sign or be the next word. Two minuses alone
turn all words after them into operands.

Values are judged late: those of an option, and operands in a row, only when
something else begins or the words end. Words that are not known are refused at
once, even if an earlier value would be refused as well. -/

namespace GraphQL

open Text

/-- Why a command line is not carried out. -/
inductive UsageError where
  | displayHelp
  | displayVersion
  | missingRequiredArgument
  | invalidSubcommand
  | invalidValue
  | valueValidation
  | unknownArgument
  | argumentConflict
  | tooManyValues
  deriving DecidableEq, Repr

inductive ReportFormat where
  | text
  | json
  deriving DecidableEq, Repr

structure CheckRequest where
  extensions : List String
  options : ParseOptions
  format : ReportFormat
  paths : List String
  deriving DecidableEq, Repr

inductive Command where
  | help (verbose : Bool)
  | check (request : CheckRequest)
  | tokens (path : String)
  deriving DecidableEq, Repr

namespace Usage

/-! ## Words -/

inductive Flag where
  | help
  | noLocation
  | verbose
  | version
  deriving DecidableEq, Repr

inductive ValueOption where
  | extensions
  | format
  | maxNestingDepth
  deriving DecidableEq, Repr

/-- What a command knows. -/
structure Vocabulary where
  flags : List (String × Flag)
  letters : List (Char × Flag)
  options : List (String × ValueOption)
  operandLimit : Option Nat

def commonFlags : List (String × Flag) := [("help", .help), ("verbose", .verbose)]

def commonLetters : List (Char × Flag) := [('h', .help), ('v', .verbose)]

/-- What is known in front of the name of a command. -/
def Vocabulary.leading : Vocabulary where
  flags := ("version", .version) :: commonFlags
  letters := ('V', .version) :: commonLetters
  options := []
  operandLimit := some 0

def Vocabulary.check : Vocabulary where
  flags := ("no-location", .noLocation) :: commonFlags
  letters := commonLetters
  options := [("graphql-file-exts", .extensions), ("format", .format),
    ("max-nesting-depth", .maxNestingDepth)]
  operandLimit := none

def Vocabulary.tokens : Vocabulary where
  flags := commonFlags
  letters := commonLetters
  options := []
  operandLimit := some 1

inductive Word where
  /-- Two minuses alone. -/
  | terminator
  /-- A name after two minuses, perhaps with a value after an equals sign. -/
  | long (name : String) (attached : Option String)
  /-- Letters after one minus. -/
  | letters (letters : List Char)
  | plain (text : String)
  deriving DecidableEq, Repr

def Word.ofString (text : String) : Word :=
  match text.toList with
  | ['-', '-'] => .terminator
  | '-' :: '-' :: rest =>
      let name := String.ofList (rest.takeWhile (· != '='))
      match rest.dropWhile (· != '=') with
      | _ :: value => .long name (some (String.ofList value))
      | [] => .long name none
  | '-' :: letter :: rest => .letters (letter :: rest)
  | _ => .plain text

/-! ## What is given -/

structure Given where
  flags : List Flag := []
  extensions : Option (List String) := none
  format : Option ReportFormat := none
  maxNestingDepth : Option Nat := none
  operands : List String := []
  deriving DecidableEq, Repr

def formatOfName? (name : String) : Option ReportFormat :=
  if name = "text" then some .text else if name = "json" then some .json else none

def depthOfText? (text : String) : Option Nat :=
  let digits := match text.toList with
    | '+' :: digits => digits
    | digits => digits
  if digits.isEmpty then none else ParseOptions.depthOfLiteral? (String.ofList digits)

namespace Given

def has (given : Given) (flag : Flag) : Bool :=
  given.flags.contains flag

/-- Takes the value of an option. File extensions may be given several times and
add up; they are separated by commas. -/
def setOption (given : Given) (option : ValueOption) (value : String) :
    Except UsageError Given :=
  match option with
  | .extensions =>
      .ok { given with
        extensions := some (given.extensions.getD [] ++ splitString ',' value) }
  | .format =>
      if given.format.isSome then .error .argumentConflict
      else
        match formatOfName? value with
        | some format => .ok { given with format := some format }
        | none => .error .invalidValue
  | .maxNestingDepth =>
      if given.maxNestingDepth.isSome then .error .argumentConflict
      else
        match depthOfText? value with
        | some depth => .ok { given with maxNestingDepth := some depth }
        | none => .error .valueValidation

/-- Takes operands, which are paths and so not empty. -/
def addOperands (given : Given) (paths : List String) : Except UsageError Given :=
  if paths.contains "" then .error .invalidValue
  else .ok { given with operands := given.operands ++ paths }

end Given

/-! ## Reading the words -/

inductive Pending where
  | nothing
  | awaited (option : ValueOption)
  | valued (option : ValueOption) (value : String)
  | operands (paths : List String)
  deriving DecidableEq, Repr

structure State where
  given : Given := {}
  pending : Pending := .nothing
  operandCount : Nat := 0
  terminated : Bool := false
  deriving DecidableEq, Repr

namespace State

def settle (state : State) : Except UsageError State := do
  let given ← match state.pending with
    | .nothing => .ok state.given
    | .awaited _ => .error .invalidValue
    | .valued option value => state.given.setOption option value
    | .operands paths => state.given.addOperands paths
  return { state with given, pending := .nothing }

def takeFlag (state : State) (flag : Flag) : Except UsageError State := do
  let state ← state.settle
  match flag with
  | .help => throw .displayHelp
  | .version => throw .displayVersion
  | .verbose | .noLocation =>
      if state.given.has flag then throw .argumentConflict
      else return { state with
        given := { state.given with flags := flag :: state.given.flags } }

/-- Takes a word that gives a flag or an option by its name. -/
def takeLong (vocabulary : Vocabulary) (state : State) (name : String)
    (attached : Option String) : Except UsageError State := do
  match vocabulary.flags.lookup name, vocabulary.options.lookup name with
  | some flag, _ => if attached.isSome then throw .tooManyValues else state.takeFlag flag
  | none, some option =>
      let state ← state.settle
      match attached with
      | some value => return { state with given := ← state.given.setOption option value }
      | none => return { state with pending := .awaited option }
  | none, none => throw .unknownArgument

/-- Takes a word of letters, each of which gives a flag. -/
def takeLetters (vocabulary : Vocabulary) (state : State) (letters : List Char) :
    Except UsageError State :=
  letters.foldlM (fun state letter =>
    match vocabulary.letters.lookup letter with
    | some flag => state.takeFlag flag
    | none => .error .unknownArgument) state

def takeOperand (vocabulary : Vocabulary) (state : State) (text : String) :
    Except UsageError State := do
  if vocabulary.operandLimit.any (· ≤ state.operandCount) then throw .unknownArgument
  let operandCount := state.operandCount + 1
  match state.pending with
  | .operands paths =>
      return { state with pending := .operands (paths ++ [text]), operandCount }
  | _ => return { ← state.settle with pending := .operands [text], operandCount }

/-- Takes a word that is neither a flag nor an option. -/
def takePlain (vocabulary : Vocabulary) (state : State) (text : String) :
    Except UsageError State :=
  match state.pending with
  | .awaited option => .ok { state with pending := .valued option text }
  | _ => state.takeOperand vocabulary text

def take (vocabulary : Vocabulary) (state : State) (text : String) :
    Except UsageError State :=
  if state.terminated then state.takeOperand vocabulary text
  else
    match Word.ofString text with
    | .terminator => .ok { state with terminated := true }
    | .long name attached => state.takeLong vocabulary name attached
    | .letters letters => state.takeLetters vocabulary letters
    | .plain text => state.takePlain vocabulary text

end State

/-- What the words after the name of a command give. -/
def readWords (vocabulary : Vocabulary) (words : List String) :
    Except UsageError Given := do
      let state ← words.foldlM (State.take vocabulary) {}
      return (← state.settle).given

/-! ## Commands -/

def usualExtensions : List String := ["graphql", "graphqls"]

def readCheck (words : List String) : Except UsageError Command := do
  let given ← readWords .check words
  if given.operands.isEmpty then throw .missingRequiredArgument
  let usual : ParseOptions := {}
  return .check
    { extensions := given.extensions.getD usualExtensions
      options := ⟨given.has .noLocation, given.maxNestingDepth.getD usual.maxNestingDepth⟩
      format := given.format.getD .text
      paths := given.operands }

def readTokens (words : List String) : Except UsageError Command := do
  let given ← readWords .tokens words
  match given.operands with
  | path :: _ => return .tokens path
  | [] => throw .missingRequiredArgument

def commandNames : List String := ["check", "tokens", "help"]

/-- Help may be asked for with the name of a command, which has none below it. -/
def readHelp : List String → Except UsageError Command
  | [] => .error .displayHelp
  | [name] =>
      .error (if commandNames.contains name then .displayHelp else .invalidSubcommand)
  | _ => .error .invalidSubcommand

/-- A word where the name of a command should stand. After two minuses it names
none. -/
def readCommand (state : State) (name : String) (words : List String) :
    Except UsageError Command :=
  if state.terminated then
    .error (if commandNames.contains name then .unknownArgument else .invalidSubcommand)
  else if name = "check" then readCheck words
  else if name = "tokens" then readTokens words
  else if name = "help" then readHelp words
  else .error .invalidSubcommand

/-- Reads flags up to the name of a command, and the command. -/
def readLeading (state : State) : List String → Except UsageError Command
  | [] => .ok (.help (state.given.has .verbose))
  | word :: rest =>
      match state.terminated, Word.ofString word with
      | true, _ => readCommand state word rest
      | false, .plain name => readCommand state name rest
      | false, _ =>
          match state.take .leading word with
          | .ok state => readLeading state rest
          | .error error => .error error

end Usage

/-- The command that the words of a command line ask for. -/
def Command.ofWords (words : List String) : Except UsageError Command :=
  Usage.readLeading {} words

end GraphQL
