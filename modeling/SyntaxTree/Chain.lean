import SyntaxTree.Node

/-!
Long trees made in a regular way: operand chains that lean to the left or to the right, and towers in
which one node is wrapped again and again.
-/

namespace SyntaxTree

namespace Node

/-- Chains operands to the left: `((first op x) op y) …`. -/
def leftChain (first : Node) (steps : List (String × Node)) : Node :=
  steps.foldl (fun node step => binary node step.1 step.2) first

/-- Chains operands to the right: `(x op (y op … last))`. -/
def rightChain (steps : List (String × Node)) (last : Node) : Node :=
  steps.foldr (fun step node => binary step.2 step.1 node) last

end Node

/-- Where a tower grows. -/
inductive Side where
  | left
  | right
  | zigzag
  | program

/-- One more level of a tower, the one with the given number. -/
def Side.wrap (operator : String) (leaf : Node) (level : Nat) (node : Node) : Side → Node
  | left => .binary node operator leaf
  | right => .binary leaf operator node
  | zigzag => if level % 2 = 0 then .binary node operator leaf else .binary leaf operator node
  | program => .program [node]

/-- A tower of `depth` levels over a leaf. -/
def Node.tower (side : Side) (operator : String) (leaf : Node) : Nat → Node
  | 0 => leaf
  | depth + 1 => side.wrap operator leaf depth (tower side operator leaf depth)

end SyntaxTree
