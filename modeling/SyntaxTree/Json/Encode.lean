import SyntaxTree.Json.Value
import SyntaxTree.Node

/-!
The JSON form of a tree. A record has the members of its node in a fixed order; a node in a tree is its
record with the tag of its kind in front. Numbers that are not finite are written as their text.
-/

namespace SyntaxTree

open Json

def Double.toValue (x : Double) : Value := if x.isFinite then .float x else .string x.text

namespace Node

/-- The name of the member that holds the tag of a node. -/
def tagName : String := "kind"

/-- An object with the tag of a kind in front. -/
def tagged (k : Kind) (members : List (String × Value)) : Value :=
  .object ((tagName, .string k.name) :: members)

mutual

/-- The members of a node without its tag. -/
def members : Node → List (String × Value)
  | program body => [("body", .array (valuesOf body))]
  | number value => [("value", value.toValue)]
  | null => []
  | identifier symbol => [("symbol", .string symbol)]
  | binary left operator right =>
    [("left", tagged left.kind left.members), ("right", tagged right.kind right.members),
      ("operator", .string operator)]
  | string value => [("value", .string value)]

def valuesOf : List Node → List Value
  | [] => []
  | node :: nodes => tagged node.kind node.members :: valuesOf nodes

end

/-- The JSON form of a node in a tree. -/
def toValue (node : Node) : Value := tagged node.kind node.members

/-- The JSON form of a node as a record of a known kind. -/
def toRecord (node : Node) : Value := .object node.members

def json (node : Node) : String := node.toValue.text

/-- The JSON text of a node as a record of a known kind. -/
def recordJson (node : Node) : String := node.toRecord.text

theorem valuesOf_eq_map (nodes : List Node) : valuesOf nodes = nodes.map toValue := by
  induction nodes with
  | nil => rfl
  | cons node nodes ih => rw [valuesOf, ih, List.map_cons, toValue]

/-- A record has exactly the fields of its kind, in their order. -/
theorem map_fst_members (node : Node) : node.members.map Prod.fst = node.kind.fields := by
  cases node <;> simp only [members, kind, Kind.fields, List.map_cons, List.map_nil]

end Node

end SyntaxTree
