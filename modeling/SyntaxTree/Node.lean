import SyntaxTree.Double
import SyntaxTree.Kind

/-!
Trees of nodes. Any node may stand as a statement of a program and as an operand of a binary expression,
and no text in a node is restricted. Two trees can be identical, or equal as far as their numbers are
equal: then a tree that holds what is no number equals nothing, and the two zeros are one number.
-/

namespace SyntaxTree

inductive Node where
  | program (body : List Node)
  | number (value : Double)
  | null
  | identifier (symbol : String)
  | binary (left : Node) (operator : String) (right : Node)
  | string (value : String)
deriving Inhabited

namespace Node

def kind : Node → Kind
  | program _ => .program
  | number _ => .numericLiteral
  | null => .nullLiteral
  | identifier _ => .identifier
  | binary _ _ _ => .binaryExpression
  | string _ => .stringLiteral

/-- The nodes directly below a node, in the order of its text. -/
def children : Node → List Node
  | program body => body
  | binary left _ right => [left, right]
  | _ => []

theorem children_of_isLeaf {node : Node} (h : node.kind.isLeaf = true) : node.children = [] := by
  cases node with
  | program _ => cases h
  | binary _ _ _ => cases h
  | _ => rfl

/-- The program of the statements that an iterator gives, in this order. -/
def programOf {α : Type} [Std.Iterator α Id Node] (statements : @Std.Iter α Node) : Node := program statements.toList

mutual

/-- Whether two trees have the same shape, the same texts, and numbers that agree in a given sense. -/
def agree (numbers : Double → Double → Bool) : Node → Node → Bool
  | program body, program body' => agreeAll numbers body body'
  | number value, number value' => numbers value value'
  | null, null => true
  | identifier symbol, identifier symbol' => symbol == symbol'
  | binary left operator right, binary left' operator' right' =>
    left.agree numbers left' && right.agree numbers right' && operator == operator'
  | string value, string value' => value == value'
  | _, _ => false

/-- The same for two lists of trees, one by one. -/
def agreeAll (numbers : Double → Double → Bool) : List Node → List Node → Bool
  | [], [] => true
  | node :: nodes, node' :: nodes' => node.agree numbers node' && agreeAll numbers nodes nodes'
  | _, _ => false

end

/-- Equality of trees as far as their numbers are equal. -/
def eqv (a b : Node) : Bool := a.agree Double.eqv b

mutual

theorem agree_beq_iff : ∀ a b : Node, a.agree (· == ·) b = true ↔ a = b
  | program body, b => by cases b <;> simp [agree, agreeAll_beq_iff body]
  | number _, b => by cases b <;> simp [agree]
  | null, b => by cases b <;> simp [agree]
  | identifier _, b => by cases b <;> simp [agree]
  | binary left operator right, b => by
    cases b <;> simp [agree, agree_beq_iff left, agree_beq_iff right]
    grind
  | string _, b => by cases b <;> simp [agree]

theorem agreeAll_beq_iff : ∀ as bs : List Node, agreeAll (· == ·) as bs = true ↔ as = bs
  | [], bs => by cases bs <;> simp [agreeAll]
  | a :: as, bs => by cases bs <;> simp [agreeAll, agree_beq_iff a, agreeAll_beq_iff as]

end

instance : DecidableEq Node := fun a b => decidable_of_iff _ (agree_beq_iff a b)

/-! ### Walks -/

theorem sizeOf_lt_of_mem_children {child node : Node} (h : child ∈ node.children) : sizeOf child < sizeOf node := by
  cases node with
  | program body =>
    have hsize : sizeOf child < sizeOf body := List.sizeOf_lt_of_mem h
    rw [program.sizeOf_spec]
    omega
  | binary left operator right =>
    rw [binary.sizeOf_spec]
    simp only [children, List.mem_cons, List.not_mem_nil, or_false] at h
    rcases h with rfl | rfl <;> omega
  | _ => cases h

/-- What holds of a node whenever it holds of the nodes directly below it holds of all trees. -/
@[elab_as_elim]
theorem childInduction {P : Node → Prop} (h : ∀ node, (∀ child ∈ node.children, P child) → P node) (node : Node) :
    P node :=
  h node fun child _ => childInduction h child
termination_by sizeOf node
decreasing_by exact sizeOf_lt_of_mem_children ‹child ∈ node.children›

/-- The nodes that are reached from a node through children, each before those below it. What is known at a node stands
beside it: `start` at the first one, and at a child what `below` makes of its parent and of what is known there. -/
def traverse {α : Type} (below : α → Node → α) (start : α) (node : Node) : List (α × Node) :=
  (start, node) :: node.children.attach.flatMap fun child => child.val.traverse below (below start node)
termination_by sizeOf node
decreasing_by exact sizeOf_lt_of_mem_children child.property

/-- The nodes of a tree with their depths, the first one being `depth`. -/
def walkFrom (depth : Nat) : Node → List (Nat × Node) := traverse (fun depth _ => depth + 1) depth

/-- The walk of a tree from its root, which has depth 0. -/
def walk (node : Node) : List (Nat × Node) := node.walkFrom 0

theorem traverse_eq {α : Type} (below : α → Node → α) (start : α) (node : Node) :
    node.traverse below start = (start, node) :: node.children.flatMap (traverse below (below start node)) := by
  rw [traverse, List.flatMap_subtype (g := traverse below (below start node)) fun _ _ => rfl, List.unattach_attach]

theorem walkFrom_eq (depth : Nat) (node : Node) :
    node.walkFrom depth = (depth, node) :: node.children.flatMap (walkFrom (depth + 1)) :=
  traverse_eq _ depth node

end Node

end SyntaxTree
