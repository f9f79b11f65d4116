/-! What a command prints, and whether it succeeded. -/

namespace GraphQL

/-- The end of a command. -/
structure Outcome where
  succeeded : Bool
  stdout : Option String := none
  stderr : Option String := none
  deriving DecidableEq, Repr

namespace Outcome

def success (text : String) : Outcome :=
  { succeeded := true, stdout := some text }

def failure (text : String) : Outcome :=
  { succeeded := false, stderr := some text }

def failureReport (text : String) : Outcome :=
  { succeeded := false, stdout := some text }

end Outcome

end GraphQL
