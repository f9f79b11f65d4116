import GraphQL.Lexical.Number
import GraphQL.Lexical.QuotedString

/-! The tokens of a JSON text, and whether they make up a value. -/

namespace GraphQL

open Text

/-- A token of a JSON text. -/
inductive JsonToken where
  | openBrace
  | closeBrace
  | openBracket
  | closeBracket
  | comma
  | colon
  | null
  | boolean (value : Bool)
  | number (literal : String)
  /-- A string, or `none` if escapes in it name no character. -/
  | string (value : Option String)
  deriving DecidableEq, Repr

namespace JsonToken

/-! ## Strings -/

/-- What a string is made of: characters, and numbers of four digits that stand
for characters or for halves of them. -/
inductive StringUnit where
  | char (value : Char)
  | code (value : Nat)
  deriving DecidableEq, Repr

def stringUnits? : List Char → Option (List StringUnit × List Char)
  | [] => none
  | '"' :: rest => some ([], rest)
  | '\\' :: 'u' :: first :: second :: third :: fourth :: rest => do
      let code ← hexQuad? [first, second, third, fourth]
      let (units, rest) ← stringUnits? rest
      return (.code code :: units, rest)
  | '\\' :: letter :: rest => do
      let meant ← simpleEscape? letter
      let (units, rest) ← stringUnits? rest
      return (.char meant :: units, rest)
  | char :: rest =>
      if char.toNat < 0x20 then none
      else do
        let (units, rest) ← stringUnits? rest
        return (.char char :: units, rest)

/-- Puts the halves of characters together. -/
def decodeUnits? : List StringUnit → Option (List Char)
  | [] => some []
  | .char value :: rest => (decodeUnits? rest).map (value :: ·)
  | .code leading :: .code trailing :: rest =>
      if isLeadingSurrogate leading && isTrailingSurrogate trailing then
        (decodeUnits? rest).map (Char.ofNat (combineSurrogates leading trailing) :: ·)
      else if isLeadingSurrogate leading || isTrailingSurrogate leading then none
      else (decodeUnits? (.code trailing :: rest)).map (Char.ofNat leading :: ·)
  | .code value :: rest =>
      if isLeadingSurrogate value || isTrailingSurrogate value then none
      else (decodeUnits? rest).map (Char.ofNat value :: ·)

/-! ## Tokens -/

def isWhitespace (char : Char) : Bool :=
  char == ' ' || char == '\t' || char == '\n' || char == '\r'

/-- Reads the token at the front of a text that does not begin with white space. -/
def read? : List Char → Option (JsonToken × List Char)
  | '\x7b' :: rest => some (openBrace, rest)
  | '\x7d' :: rest => some (closeBrace, rest)
  | '[' :: rest => some (openBracket, rest)
  | ']' :: rest => some (closeBracket, rest)
  | ',' :: rest => some (comma, rest)
  | ':' :: rest => some (colon, rest)
  | 'n' :: 'u' :: 'l' :: 'l' :: rest => some (null, rest)
  | 't' :: 'r' :: 'u' :: 'e' :: rest => some (boolean true, rest)
  | 'f' :: 'a' :: 'l' :: 's' :: 'e' :: rest => some (boolean false, rest)
  | '"' :: rest => do
      let (units, rest) ← stringUnits? rest
      return (string ((decodeUnits? units).map String.ofList), rest)
  | text =>
      match readNumber text with
      | .ok reading => some (number (String.ofList reading.text), reading.rest)
      | .error _ => none

def readAll? : (limit : Nat) → List Char → Option (List JsonToken)
  | limit, text =>
      match text.dropWhile isWhitespace with
      | [] => some []
      | ahead =>
          match limit with
          | 0 => none
          | limit + 1 => do
              let (token, rest) ← read? ahead
              return token :: (← readAll? limit rest)

def ofText? (text : String) : Option (List JsonToken) :=
  readAll? text.length text.toList

/-! ## Values -/

inductive Bracket where
  | array
  | object
  deriving DecidableEq, Repr

/-- What may come next within a value. -/
inductive Awaited where
  | value
  /-- A value, or the end of an array that has none yet. -/
  | firstItem
  | key
  /-- A key, or the end of an object that has none yet. -/
  | firstKey
  | colon
  /-- A comma, or the end of what was opened last. After the outermost value
  nothing may come. -/
  | next
  deriving DecidableEq, Repr

structure Place where
  brackets : List Bracket
  awaited : Awaited
  deriving DecidableEq, Repr

namespace Place

def start : Place := ⟨[], .value⟩

def isComplete (place : Place) : Bool :=
  place.brackets.isEmpty && place.awaited == .next

def begin? (place : Place) : JsonToken → Option Place
  | openBrace => some ⟨.object :: place.brackets, .firstKey⟩
  | openBracket => some ⟨.array :: place.brackets, .firstItem⟩
  | null | boolean _ | number _ | string _ => some ⟨place.brackets, .next⟩
  | closeBrace | closeBracket | comma | colon => none

def step? (place : Place) (token : JsonToken) : Option Place :=
  match place.awaited, token, place.brackets with
  | .value, _, _ => place.begin? token
  | .firstItem, .closeBracket, _ :: outer => some ⟨outer, .next⟩
  | .firstItem, _, _ => place.begin? token
  | .key, .string _, _ => some ⟨place.brackets, .colon⟩
  | .firstKey, .string _, _ => some ⟨place.brackets, .colon⟩
  | .firstKey, .closeBrace, _ :: outer => some ⟨outer, .next⟩
  | .colon, .colon, _ => some ⟨place.brackets, .value⟩
  | .next, .comma, .array :: _ => some ⟨place.brackets, .value⟩
  | .next, .comma, .object :: _ => some ⟨place.brackets, .key⟩
  | .next, .closeBracket, .array :: outer => some ⟨outer, .next⟩
  | .next, .closeBrace, .object :: outer => some ⟨outer, .next⟩
  | _, _, _ => none

end Place

/-- The tokens that stand within the outermost brackets and no others, if all
tokens together are one value. -/
def outermost? (place : Place) : List JsonToken → Option (List JsonToken)
  | [] => if place.isComplete then some [] else none
  | token :: rest => do
      let inner ← outermost? (← place.step? token) rest
      return if place.brackets.length = 1 then token :: inner else inner

/-- The members of an object, each key with the first token of its value, from
the tokens that stand within its brackets. -/
def members : List JsonToken → List (Option String × JsonToken)
  | .string key :: .colon :: value :: rest => (key, value) :: members rest
  | _ :: rest => members rest
  | [] => []

/-- The first tokens of the items of an array, from the tokens that stand within
its brackets. -/
def items (inner : List JsonToken) : List JsonToken :=
  inner.filter fun token => token != .comma && token != .closeBracket

end JsonToken

end GraphQL
