import SyntaxTree.Draft
import SyntaxTree.Json.Encode

/-!
Making sense of values. A node is an object with a tag, anywhere among its members, or an array that
starts with the tag and goes on with the fields in order; a tag is the name of a kind or its index. Members
that are no fields are ignored. Faults are found in the order of the members.
-/

namespace SyntaxTree

namespace Json

def kindOfName (name : String) : Except Fault Kind :=
  match Kind.ofName? name with
  | some k => .ok k
  | none => .error (.content (.unknownTag name))

def kindOfValue : Value → Except Fault Kind
  | .string name => kindOfName name
  | .integer (.ofNat index) =>
    match Kind.ofIndex? index with
    | some k => .ok k
    | none => .error (.content (.invalidValue (.integer index) .tagIndex))
  | v => .error (.mismatch v.found .tag)

/-- Finds the tag among the members of an object. -/
def tagOfMembers : Option Kind → List (String × Value) → Except Fault Kind
  | none, [] => .error (.missing Node.tagName)
  | some k, [] => .ok k
  | tag?, (name, v) :: members =>
    if name = Node.tagName then
      if tag?.isSome then .error (.duplicate name)
      else do
        let k ← kindOfValue v
        tagOfMembers (some k) members
    else tagOfMembers tag? members

def textOfValue : Value → Except Fault String
  | .string text => .ok text
  | v => .error (.mismatch v.found .text)

/-- The number that a value stands for. Numbers that are not finite have names. -/
def numberOfValue : Value → Except Fault Double
  | .integer n => .ok (.ofInt n)
  | .float x => .ok x
  | .string name =>
    match Double.ofName? name with
    | some x => .ok x
    | none => .error (.content (.invalidValue (.string name) .number))
  | _ => .error (.content .notNumeric)

mutual

/-- What a value stands for in a given place. -/
def contentOfValue : (place : Place) → Value → Except Fault place.Content
  | .node, .object members => do
    let k ← tagOfMembers none members
    let draft ← fillMembers (.blank k) members
    draft.finish
  | .node, .array [] => .error (.missing Node.tagName)
  | .node, .array (tag :: items) => do
    let k ← kindOfValue tag
    let draft ← fillItems k items.length (.blank k) k.fields items
    draft.finish
  | .node, v => .error (.mismatch v.found .node)
  | .nodes, .array items => nodesOfValues items
  | .nodes, v => .error (.mismatch v.found .nodes)
  | .text, v => textOfValue v
  | .number, v => numberOfValue v

def nodesOfValues : List Value → Except Fault (List Node)
  | [] => .ok []
  | v :: vs => do
    let node ← contentOfValue .node v
    let nodes ← nodesOfValues vs
    .ok (node :: nodes)

/-- Fills in the fields of a draft that are among the members of an object. -/
def fillMembers : Draft → List (String × Value) → Except Fault Draft
  | draft, [] => .ok draft
  | draft, (name, v) :: members =>
    match draft.slot name with
    | .unknown => fillMembers draft members
    | .filled => .error (.duplicate name)
    | .vacant place fill => do
      let content ← contentOfValue place v
      fillMembers (fill content) members

/-- Fills in the fields of a draft from as many items in the same order; `count` is the number of items
there were at first. -/
def fillItems (k : Kind) (count : Nat) : Draft → List String → List Value → Except Fault Draft
  | draft, [], [] => .ok draft
  | _, [], _ :: _ => .error (.content (.invalidLength count (.items k.fields.length)))
  | _, _ :: _, [] => .error (.content (.invalidLength count (.recordItems k)))
  | draft, name :: names, v :: vs =>
    match draft.slot name with
    | .unknown => fillItems k count draft names vs
    | .filled => .error (.duplicate name)
    | .vacant place fill => do
      let content ← contentOfValue place v
      fillItems k count (fill content) names vs

end

end Json

namespace Node

open Json

def ofValue (v : Value) : Except Fault Node := contentOfValue .node v

/-- The node of a kind from the members that stood with its tag. -/
def ofMembers (k : Kind) (members : List (String × Value)) : Except Fault Node := do
  let draft ← fillMembers (.blank k) members
  draft.finish

/-- The node of a kind from the items that followed its tag. -/
def ofItems (k : Kind) (items : List Value) : Except Fault Node := do
  let draft ← fillItems k items.length (.blank k) k.fields items
  draft.finish

theorem ofValue_object (members : List (String × Value)) :
    ofValue (.object members) = (do ofMembers (← tagOfMembers none members) members) := by
  rw [ofValue, contentOfValue]
  rfl

theorem ofValue_array_cons (tag : Value) (items : List Value) :
    ofValue (.array (tag :: items)) = (do ofItems (← kindOfValue tag) items) := by
  rw [ofValue, contentOfValue]
  rfl

end Node

end SyntaxTree
