import SyntaxTree.Builder
import SyntaxTree.Json.Fault

/-!
Records that are being filled in. A draft knows its kind and the fields read so far. Asking it for a field
by name gives a slot, which tells what may go there and carries the draft with the field filled.
-/

namespace SyntaxTree

open Json (Fault)

/-- What a field of a record holds. -/
inductive Place where
  | node
  | nodes
  | text
  | number
deriving DecidableEq

abbrev Place.Content : Place → Type
  | node => Node
  | nodes => List Node
  | text => String
  | number => Double

/-- A record of some kind, with the fields read so far. -/
inductive Draft where
  | program (body? : Option (List Node))
  | number (value? : Option Double)
  | null
  | identifier (symbol? : Option String)
  | binary (parts : Builder)
  | string (value? : Option String)

inductive Slot where
  | unknown
  | filled
  | vacant (place : Place) (fill : place.Content → Draft)

/-- The slot for a field with the given contents, if it has any yet. -/
def Slot.of {α : Type} (current : Option α) (place : Place) (fill : place.Content → Draft) : Slot :=
  if current.isSome then filled else vacant place fill

namespace Draft

def blank : Kind → Draft
  | .program => program none
  | .numericLiteral => number none
  | .nullLiteral => null
  | .identifier => identifier none
  | .binaryExpression => binary {}
  | .stringLiteral => string none

def slot (draft : Draft) (name : String) : Slot :=
  match draft with
  | program body? => if name = "body" then .of body? .nodes fun body => program (some body) else .unknown
  | number value? => if name = "value" then .of value? .number fun value => number (some value) else .unknown
  | null => .unknown
  | identifier symbol? =>
    if name = "symbol" then .of symbol? .text fun symbol => identifier (some symbol) else .unknown
  | binary parts =>
    if name = "left" then .of parts.left? .node fun node => binary (parts.left node)
    else if name = "right" then .of parts.right? .node fun node => binary (parts.right node)
    else if name = "operator" then .of parts.operator? .text fun text => binary (parts.operator text)
    else .unknown
  | string value? => if name = "value" then .of value? .text fun value => string (some value) else .unknown

def require {α : Type} (name : String) (field? : Option α) : Except Fault α :=
  match field? with
  | some field => .ok field
  | none => .error (.missing name)

/-- The node of a draft whose fields are all filled; the first missing one is a fault. -/
def finish : Draft → Except Fault Node
  | program body? => do .ok (.program (← require "body" body?))
  | number value? => do .ok (.number (← require "value" value?))
  | null => .ok .null
  | identifier symbol? => do .ok (.identifier (← require "symbol" symbol?))
  | binary parts => do
    let left ← require "left" parts.left?
    let right ← require "right" parts.right?
    let operator ← require "operator" parts.operator?
    .ok (.binary left operator right)
  | string value? => do .ok (.string (← require "value" value?))

end Draft

end SyntaxTree
