import SyntaxTree.Numeral

/-!
JSON values and their compact text. Numbers are integers or binary64 numbers, and an object keeps its
members in order, repeated names included. Writing puts no blanks between tokens and escapes only what
JSON demands.
-/

namespace SyntaxTree.Json

inductive Value where
  | null
  | bool (value : Bool)
  | integer (value : Int)
  | float (value : Double)
  | string (value : String)
  | array (items : List Value)
  | object (members : List (String × Value))
deriving Inhabited

/-- A character inside a JSON string. -/
def escapedChar (c : Char) : List Char :=
  if c = '"' then ['\\', '"']
  else if c = '\\' then ['\\', '\\']
  else if c = '\n' then ['\\', 'n']
  else if c = '\r' then ['\\', 'r']
  else if c = '\t' then ['\\', 't']
  else if c.toNat = 8 then ['\\', 'b']
  else if c.toNat = 12 then ['\\', 'f']
  else if c.toNat < 32 then
    ['\\', 'u', '0', '0', Nat.digitChar (c.toNat / 16), Nat.digitChar (c.toNat % 16)]
  else [c]

def writeString (text : String) (rest : List Char) : List Char :=
  '"' :: (text.toList.flatMap escapedChar ++ '"' :: rest)

def writeInteger (n : Int) (rest : List Char) : List Char :=
  Double.signChars (decide (n < 0)) ++ Nat.toDigits 10 n.natAbs ++ rest

/-- Writes the comma in front of all items but the first. -/
def writeComma (first : Bool) (rest : List Char) : List Char := if first then rest else ',' :: rest

namespace Value

mutual

/-- Writes a value in front of `rest`. -/
def write : Value → List Char → List Char
  | null, rest => "null".toList ++ rest
  | bool value, rest => (if value then "true" else "false").toList ++ rest
  | integer value, rest => writeInteger value rest
  | float value, rest => value.jsonChars ++ rest
  | string value, rest => writeString value rest
  | array items, rest => '[' :: writeItems true items (']' :: rest)
  | object members, rest => '{' :: writeMembers true members ('}' :: rest)

def writeItems (first : Bool) : List Value → List Char → List Char
  | [], rest => rest
  | item :: items, rest => writeComma first (item.write (writeItems false items rest))

def writeMembers (first : Bool) : List (String × Value) → List Char → List Char
  | [], rest => rest
  | (name, value) :: members, rest =>
    writeComma first (writeString name (':' :: value.write (writeMembers false members rest)))

end

/-- The compact text of a value. -/
def text (value : Value) : String := String.ofList (value.write [])

/-- Puts a member in front of the first one whose name is greater. -/
def insertMember (name : String) (value : Value) : List (String × Value) → List (String × Value)
  | [] => [(name, value)]
  | (name', value') :: members =>
    if name < name' then (name, value) :: (name', value') :: members
    else (name', value') :: insertMember name value members

mutual

/-- The same value with the members of every object in alphabetical order. -/
def sorted : Value → Value
  | array items => array (sortedItems items)
  | object members => object (sortedMembers members)
  | value => value

def sortedItems : List Value → List Value
  | [] => []
  | item :: items => item.sorted :: sortedItems items

def sortedMembers : List (String × Value) → List (String × Value)
  | [] => []
  | (name, value) :: members => insertMember name value.sorted (sortedMembers members)

end

end Value

end SyntaxTree.Json
