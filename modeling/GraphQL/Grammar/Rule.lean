import GraphQL.Grammar.Fault
import GraphQL.Syntax.Document

/-! The form in which the grammar is written.

A rule says which tokens to take, and builds a part of the syntax tree from them.
It is data: it names the few things that reading a document needs, and how these
are done is left to whoever reads by it. Rules see what a token says and never
where it stands, so what they build depends on the tokens alone. -/

namespace GraphQL

/-- The first and the last token of a node, by number. -/
structure Extent where
  first : Nat
  last : Nat
  deriving DecidableEq, Repr

inductive Constness where
  | constant
  | variable
  deriving DecidableEq, Repr

/-- The parts of a document that may lie within one another to any depth. -/
inductive Nonterminal where
  | selectionSet
  | list (constness : Constness)
  | object (constness : Constness)
  /-- What a list type is a list of. -/
  | listElement
  deriving DecidableEq, Repr

abbrev Nonterminal.Tree : Nonterminal → Type
  | selectionSet => SelectionSet Extent
  | list _ | object _ => Value Extent
  | listElement => TypeReference Extent

inductive Vantage where
  /-- The last token taken. -/
  | last
  | current
  /-- The token after that. -/
  | ahead
  deriving DecidableEq, Repr

/-- A way to read a part of a document. -/
inductive Rule : Type → Type 1 where
  | pure {α : Type} (value : α) : Rule α
  | bind {α β : Type} (first : Rule α) (second : α → Rule β) : Rule β
  | peek (vantage : Vantage) : Rule Lexeme
  | advance : Rule Unit
  | refuse {α : Type} (blamed : Vantage) (fault : GrammarFault) : Rule α
  | located {α : Type} (rule : Rule (Extent → α)) : Rule α
  | repeatWhile {α : Type} (promises : Lexeme → Bool) (item : Rule α) : Rule (List α)
  /-- Reads a part that lies one level deeper. -/
  | nested (nonterminal : Nonterminal) : Rule nonterminal.Tree

namespace Rule

instance : Monad Rule where
  pure := Rule.pure
  bind := Rule.bind

/-! ## Single tokens -/

def expect (kind : TokenKind) : Rule Unit := do
  let found ← peek .current
  if found.kind = kind then advance else refuse .current (.expected kind found)

def mark (punctuator : Punctuator) : Rule Unit :=
  expect (.punctuator punctuator)

def keyword (word : String) : Rule Unit := do
  let found ← peek .current
  if found.isKeyword word then advance else refuse .current (.expectedKeyword word found)

def atMark (punctuator : Punctuator) : Rule Bool := do
  return (← peek .current) == .punctuator punctuator

/-- Takes a token if it fits, and says whether it did. -/
def takeIf (fits : Lexeme → Bool) : Rule Bool := do
  if fits (← peek .current) then
    advance
    return true
  else return false

def optionalMark (punctuator : Punctuator) : Rule Bool :=
  takeIf (· == .punctuator punctuator)

def optionalKeyword (word : String) : Rule Bool :=
  takeIf (·.isKeyword word)

def optional {α : Type} (condition : Bool) (rule : Rule α) : Rule (Option α) :=
  if condition then some <$> rule else return none

/-! ## Several items -/

def itemsUntil {α : Type} (close : Punctuator) (item : Rule α) : Rule (List α) := do
  let items ← repeatWhile (· != .punctuator close) item
  mark close
  return items

def any {α : Type} (opening : Punctuator) (item : Rule α) (close : Punctuator) :
    Rule (List α) := do
  mark opening
  itemsUntil close item

def many {α : Type} (opening : Punctuator) (item : Rule α) (close : Punctuator) :
    Rule (List α) := do
  mark opening
  let first ← item
  let others ← itemsUntil close item
  return first :: others

/-- Reads items between marks, of which there is one at least, or nothing. -/
def optionalMany {α : Type} (opening : Punctuator) (item : Rule α) (close : Punctuator) :
    Rule (List α) := do
  if ← atMark opening then many opening item close else return []

/-- Reads one or more items with a separator in between, which may also stand in
front of the first. -/
def separated {α : Type} (separator : Punctuator) (item : Rule α) : Rule (List α) := do
  let _ ← optionalMark separator
  let first ← item
  let others ← repeatWhile (· == .punctuator separator) do
    mark separator
    item
  return first :: others

end Rule

end GraphQL
