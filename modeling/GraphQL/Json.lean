import GraphQL.Assoc
import GraphQL.Numeric.Shortest
import GraphQL.Text.Hexadecimal

/-! JSON values and how they are written. -/

namespace GraphQL

open Text

/-- A JSON value. -/
inductive Json where
  | null
  | boolean (value : Bool)
  | integer (value : Int)
  | float (value : Binary64)
  | string (value : String)
  | array (items : List Json)
  | object (members : List (String × Json))
  deriving Inhabited

namespace Json

/-! ## Order of members -/

mutual

/-- The same value with the members of every object in the order of their keys. -/
def sortKeys : Json → Json
  | null => null
  | boolean value => boolean value
  | integer value => integer value
  | float value => float value
  | string value => string value
  | array items => array (sortItems items)
  | object members => object (sortMembers members [])

def sortItems : List Json → List Json
  | [] => []
  | item :: rest => item.sortKeys :: sortItems rest

def sortMembers : List (String × Json) → List (String × Json) → List (String × Json)
  | [], sorted => sorted
  | (key, value) :: rest, sorted =>
      sortMembers rest (Assoc.insertSorted key value.sortKeys sorted)

end

/-! ## Numbers -/

def zeros (count : Int) : List Char :=
  List.replicate count.toNat '0'

/-- Digits with the point after the first `place` of them. There is a digit on
either side of it. -/
def positional (digits : List Char) (place : Int) : List Char :=
  let digits := zeros (1 - place) ++ digits ++ zeros (place + 1 - digits.length)
  let place := (max place 1).toNat
  digits.take place ++ '.' :: digits.drop place

def scientific (digits : List Char) (exponent : Int) : List Char :=
  let fraction := digits.drop 1
  digits.take 1 ++ (if fraction.isEmpty then [] else '.' :: fraction) ++
    (if exponent < 0 then ['e'] else ['e', '+']) ++ (toString exponent).toList

/-- A number by its shortest decimal. Powers of ten are written for numbers below
a hundred-thousandth and from `10 ^ 16` on. What is not finite is no JSON number. -/
def floatText (number : Binary64) : String :=
  if number.isFinite then
    let decimal := number.shortest
    let digits := Nat.toDigits 10 decimal.digits
    let place := digits.length + decimal.exponent
    let unsigned :=
      if -5 < place ∧ place ≤ 16 then positional digits place
        else scientific digits (place - 1)
    String.ofList (if decimal.negative then '-' :: unsigned else unsigned)
  else "null"

example : floatText ⟨0x3FF8000000000000⟩ = "1.5" := by decide +kernel

/-! ## Strings -/

def escapeChar (char : Char) : List Char :=
  if char = '"' then ['\\', '"']
  else if char = '\\' then ['\\', '\\']
  else if char = '\x08' then ['\\', 'b']
  else if char = '\t' then ['\\', 't']
  else if char = '\n' then ['\\', 'n']
  else if char = '\x0c' then ['\\', 'f']
  else if char = '\r' then ['\\', 'r']
  else if char.toNat < 0x20 then ['\\', 'u'] ++ hexDigits 4 char.toNat
  else [char]

def quote (text : String) : String :=
  "\"" ++ String.ofList (text.toList.flatMap escapeChar) ++ "\""

/-! ## Writing -/

/-- How much white space is written: none, or line breaks with an indentation of
so many levels. -/
inductive Layout where
  | compact
  | indented (level : Nat)
  deriving DecidableEq, Repr

namespace Layout

def deeper : Layout → Layout
  | compact => compact
  | indented level => indented (level + 1)

def lineBreak : Layout → String
  | compact => ""
  | indented level => "\n" ++ String.ofList (List.replicate (2 * level) ' ')

def colon : Layout → String
  | compact => ":"
  | indented _ => ": "

def enclose (layout : Layout) (opening closing : String) (items : List String) : String :=
  if items.isEmpty then opening ++ closing
  else
    opening ++ ",".intercalate (items.map (layout.deeper.lineBreak ++ ·)) ++
      layout.lineBreak ++ closing

end Layout

mutual

def render (layout : Layout) : Json → String
  | null => "null"
  | boolean value => if value then "true" else "false"
  | integer value => toString value
  | float value => floatText value
  | string value => quote value
  | array items => layout.enclose "[" "]" (renderItems layout.deeper items)
  | object members => layout.enclose "\x7b" "\x7d" (renderMembers layout.deeper members)

def renderItems (layout : Layout) : List Json → List String
  | [] => []
  | item :: rest => item.render layout :: renderItems layout rest

def renderMembers (layout : Layout) : List (String × Json) → List String
  | [] => []
  | (key, value) :: rest =>
      (quote key ++ layout.colon ++ value.render layout) :: renderMembers layout rest

end

def compact (value : Json) : String := value.render .compact

def pretty (value : Json) : String := value.render (.indented 0)

end Json

end GraphQL
