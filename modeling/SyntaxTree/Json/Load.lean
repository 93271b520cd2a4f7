import SyntaxTree.Json.Decode
import SyntaxTree.Json.Read
import SyntaxTree.Json.Skip

/-!
Loading trees from JSON text. A record is read straight from its text: its fields are read as they come
and other members are skipped. A node is read as far as its closing bracket before any sense is made of it,
its tag excepted, which is judged as soon as it is reached; so a fault of the grammar inside a node comes
before any other.
-/

namespace SyntaxTree

namespace Json

/-- How many brackets may be open inside each other. -/
def maxDepth : Nat := 127

/-- The fault of a text that goes on with something else than was expected. A scalar is read to its end. -/
def unexpected {α : Type} (found : Token) (expected : Expected) : Except Fault α :=
  match found with
  | .scalar v => .error (.mismatch v.found expected)
  | .openArray => .error (.mismatch .array expected)
  | .openObject => .error (.mismatch .object expected)

def readText (expected : Expected) (cs : List Char) : Except Fault (String × List Char) := do
  let (token, cs) ← readToken .full cs
  match token with
  | .scalar (.string text) => .ok (text, cs)
  | token => unexpected token expected

def readTag (cs : List Char) : Except Fault (Kind × List Char) := do
  let (name, cs) ← readText .tag cs
  let k ← kindOfName name
  .ok (k, cs)

/-- What has been read of a node: its tag, and its other members last first. -/
structure NodeParts where
  tag? : Option Kind := none
  members : List (String × Value) := []

/-- Reads a member of a node. The tag is judged at once and all else is kept. -/
def readNodeMember (bound room : Nat) (name : String) (parts : NodeParts) (cs : List Char) :
    Except Fault (NodeParts × List Char) :=
  if name = Node.tagName then
    if parts.tag?.isSome then .error (.duplicate name)
    else do
      let cs ← colon cs
      let (k, cs) ← readTag cs
      .ok ({ parts with tag? := some k }, cs)
  else do
    let (members, cs) ← collectMember (readValue bound room) name parts.members cs
    .ok ({ parts with members }, cs)

def readNode (bound room : Nat) (cs : List Char) : Except Fault (Node × List Char) := do
  let (token, cs) ← readToken .full cs
  match token with
  | .openObject => do
    let room ← enter room
    let (parts, cs) ← objectMembers (readNodeMember bound room) bound true {} cs
    let k ← Draft.require Node.tagName parts.tag?
    let node ← Node.ofMembers k parts.members.reverse
    .ok (node, cs)
  | .openArray => do
    let room ← enter room
    let (next, cs) ← nextElement true cs
    match next with
    | .close => .error (.missing Node.tagName)
    | .item => do
      let (k, cs) ← readTag cs
      let (items, cs) ← elements (collect (readValue bound room)) bound false [] cs
      let node ← Node.ofItems k items.reverse
      .ok (node, cs)
  | token => unexpected token .node

def readNodes (bound room : Nat) (cs : List Char) : Except Fault (List Node × List Char) := do
  let (token, cs) ← readToken .full cs
  match token with
  | .openArray => do
    let room ← enter room
    let (nodes, cs) ← elements (collect (readNode bound room)) bound true [] cs
    .ok (nodes.reverse, cs)
  | token => unexpected token .nodes

/-- Reads a number, which is kept as a value before it is judged. -/
def readDouble (bound room : Nat) (cs : List Char) : Except Fault (Double × List Char) := do
  let (v, cs) ← readValue bound room cs
  let x ← numberOfValue v
  .ok (x, cs)

def readContent (bound room : Nat) : (place : Place) → Reader place.Content
  | .node => readNode bound room
  | .nodes => readNodes bound room
  | .text => readText .text
  | .number => readDouble bound room

/-- Reads a member of a record: a field, or something to skip. -/
def readField (bound room : Nat) (name : String) (draft : Draft) (cs : List Char) :
    Except Fault (Draft × List Char) :=
  match draft.slot name with
  | .unknown => do
    let cs ← colon cs
    let cs ← skip bound cs
    .ok (draft, cs)
  | .filled => .error (.duplicate name)
  | .vacant place fill => do
    let cs ← colon cs
    let (content, cs) ← readContent bound room place cs
    .ok (fill content, cs)

/-- Goes past the bracket that closes an array of which all items have been read. -/
def closeArray (cs : List Char) : Except Fault (List Char) :=
  match skipBlanks cs with
  | [] => .error .endOfText
  | c :: cs => if c = ']' then .ok cs else .error .malformed

/-- Reads the fields of a record from the items of an array; `count` items have been read. -/
def readItems (bound room : Nat) (k : Kind) (count : Nat) (draft : Draft) :
    List String → List Char → Except Fault (Draft × List Char)
  | [], cs => do
    let cs ← closeArray cs
    .ok (draft, cs)
  | name :: names, cs => do
    let (next, cs) ← nextElement (count == 0) cs
    match next with
    | .close => .error (.content (.invalidLength count (.recordItems k)))
    | .item =>
      match draft.slot name with
      | .vacant place fill => do
        let (content, cs) ← readContent bound room place cs
        readItems bound room k (count + 1) (fill content) names cs
      | _ => .error (.duplicate name)

def readRecord (k : Kind) (bound room : Nat) (cs : List Char) : Except Fault (Node × List Char) := do
  let (token, cs) ← readToken .full cs
  match token with
  | .openObject => do
    let room ← enter room
    let (draft, cs) ← objectMembers (readField bound room) bound true (.blank k) cs
    let node ← draft.finish
    .ok (node, cs)
  | .openArray => do
    let room ← enter room
    let (draft, cs) ← readItems bound room k 0 (.blank k) k.fields cs
    let node ← draft.finish
    .ok (node, cs)
  | token => unexpected token (.record k)

/-- Reads the value null. -/
def readUnit (cs : List Char) : Except Fault (List Char) := do
  let (token, cs) ← readToken .full cs
  match token with
  | .scalar .null => .ok cs
  | token => unexpected token .unit

/-- Reads the name of a kind, as a string or as the only member of an object, with the value null. -/
def readKind (cs : List Char) : Except Fault (Kind × List Char) :=
  match skipBlanks cs with
  | [] => .error .endOfText
  | c :: cs =>
    if c = '"' then readTag (c :: cs)
    else if c = '{' then do
      -- an object opens with a name: any other token here breaks the grammar, and what it is does not matter
      let (_, cs) ← openName (skipBlanks cs)
      let (name, cs) ← readString .full cs
      let k ← kindOfName name
      let cs ← colon cs
      let cs ← readUnit cs
      match skipBlanks cs with
      | [] => .error .endOfText
      | d :: cs => if d = '}' then .ok (k, cs) else .error .malformed
    else .error .malformed

/-- Reads all of a text, which may end in blanks. -/
def readAll {α : Type} (read : Reader α) (cs : List Char) : Except Fault α := do
  let (result, cs) ← read cs
  match skipBlanks cs with
  | [] => .ok result
  | _ :: _ => .error .malformed

/-- A number above the number of items of any array or object in a text. -/
def bound (text : String) : Nat := text.toList.length + 1

end Json

open Json

/-- The node with a given JSON text. -/
def Node.load (text : String) : Except Fault Node := readAll (readNode (bound text) maxDepth) text.toList

/-- The node of a known kind with a given JSON text that has no tag. -/
def Node.loadRecord (k : Kind) (text : String) : Except Fault Node :=
  readAll (readRecord k (bound text) maxDepth) text.toList

/-- The kind with a given JSON text. -/
def Kind.load (text : String) : Except Fault Kind := readAll readKind text.toList

/-- The value with a given JSON text that nests at most `depth` brackets. -/
def Json.Value.load (depth : Nat) (text : String) : Except Fault Value :=
  readAll (readValue (bound text) depth) text.toList

namespace Node

/-- The node written as JSON text and read back. -/
def reload (node : Node) : Except Fault Node := load node.json

/-- The node written as a record of its kind and read back. -/
def reloadRecord (node : Node) : Except Fault Node := loadRecord node.kind node.recordJson

/-- The node turned into a value with sorted members and made sense of again. -/
def reloadValue (node : Node) : Except Fault Node := ofValue node.toValue.sorted

end Node

end SyntaxTree
