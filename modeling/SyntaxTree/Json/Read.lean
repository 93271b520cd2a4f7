import SyntaxTree.Json.Loop

/-!
Reading a value in full. Brackets may be open inside each other up to a limit, and one too many is a fault
as soon as it opens.
-/

namespace SyntaxTree.Json

/-- The room left inside one more bracket. -/
def enter : Nat → Except Fault Nat
  | 0 => .error .tooDeep
  | room + 1 => .ok room

/-- A step that collects the members of an object, last first. -/
def collectMember (read : Reader Value) (name : String) (members : List (String × Value)) :
    Reader (List (String × Value)) := fun cs => do
  let cs ← colon cs
  let (value, cs) ← read cs
  .ok ((name, value) :: members, cs)

/-- Reads a value in full. There is room for `room` more brackets inside each other, and no array or
object has `bound` items or more. -/
def readValue (bound : Nat) : Nat → Reader Value
  | room, cs => do
    let (token, cs) ← readToken .full cs
    match token with
    | .scalar value => .ok (value, cs)
    | .openArray =>
      match room with
      | 0 => .error .tooDeep
      | room + 1 => do
        let (items, cs) ← elements (collect (readValue bound room)) bound true [] cs
        .ok (.array items.reverse, cs)
    | .openObject =>
      match room with
      | 0 => .error .tooDeep
      | room + 1 => do
        let (members, cs) ← objectMembers (collectMember (readValue bound room)) bound true [] cs
        .ok (.object members.reverse, cs)

end SyntaxTree.Json
