import GraphQL.CommandLine.Check
import GraphQL.CommandLine.Tokens

/-! Carrying out commands. -/

namespace GraphQL

/-- Carries out a command, unless it asks for help only. -/
def Command.run? (system : FileSystem) : Command → Option Outcome
  | help _ => none
  | check request => some (Check.run system request)
  | tokens path => some (Tokens.run system path)

end GraphQL
