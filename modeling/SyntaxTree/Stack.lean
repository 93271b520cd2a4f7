import SyntaxTree.Chain
import SyntaxTree.Render
import SyntaxTree.Json.Load

/-!
A stack of nodes and the commands that work on it. A command that needs more entries than there are leaves
the stack as it is, and so does one that fails.
-/

namespace SyntaxTree

open Json (Fault)

inductive Command where
  | push (node : Node)
  | dup
  | drop
  | swap
  | binary (operator : String)
  | program (count : Nat)
  | child (index : Nat)
  | children
  | eqv
  | render
  | dump
  | load
  | reload
  | foldLeft (operator : String)
  | foldRight (operator : String)

def Command.needs : Command → Nat
  | push _ => 0
  | binary _ | swap | eqv => 2
  | program count => count
  | _ => 1

/-- Why a command did nothing. -/
inductive Problem where
  | underflow
  | noChild
  | fault (fault : Fault)

/-- The stack after a command, the top first, and what else the command answers. -/
structure Outcome where
  stack : List Node
  equal? : Option Bool := none
  problem? : Option Problem := none

namespace Node

/-- The text that a node gives to be loaded: its own text for a string or an identifier, and otherwise its
canonical text. -/
def source : Node → String
  | string value => value
  | identifier symbol => symbol
  | node => node.text

end Node

namespace Command

/-- Runs a command that looks at the top of a stack. -/
def runOnTop (command : Command) (top : Node) (below : List Node) : Outcome :=
  match command, below with
  | dup, _ => ⟨top :: top :: below, none, none⟩
  | drop, _ => ⟨below, none, none⟩
  | swap, second :: rest => ⟨second :: top :: rest, none, none⟩
  | binary operator, second :: rest => ⟨.binary second operator top :: rest, none, none⟩
  | eqv, second :: _ => ⟨top :: below, some (second.eqv top), none⟩
  | child index, _ =>
    match top.children[index]? with
    | some node => ⟨node :: below, none, none⟩
    | none => ⟨top :: below, none, some .noChild⟩
  | children, _ => ⟨top.children.reverse ++ below, none, none⟩
  | render, _ => ⟨.string top.text :: below, none, none⟩
  | dump, _ => ⟨.string top.json :: below, none, none⟩
  | load, _ =>
    match Node.load top.source with
    | .ok node => ⟨node :: below, none, none⟩
    | .error fault => ⟨top :: below, none, some (.fault fault)⟩
  | reload, _ =>
    match top.reload with
    | .ok node => ⟨node :: below, some (node.eqv top), none⟩
    | .error fault => ⟨top :: below, none, some (.fault fault)⟩
  | foldLeft operator, _ =>
    match (top :: below).reverse with
    | first :: others => ⟨[first.leftChain (others.map fun node => (operator, node))], none, none⟩
    | [] => ⟨[], none, none⟩
  | foldRight operator, _ =>
    ⟨[Node.rightChain (below.reverse.map fun node => (operator, node)) top], none, none⟩
  | _, _ => ⟨top :: below, none, some .underflow⟩

/-- Runs a command. A program is made of the topmost nodes, the deepest first. -/
def run (command : Command) (stack : List Node) : Outcome :=
  if stack.length < command.needs then ⟨stack, none, some .underflow⟩
  else
    match command, stack with
    | push node, stack => ⟨node :: stack, none, none⟩
    | program count, stack => ⟨.program (stack.take count).reverse :: stack.drop count, none, none⟩
    | command, top :: below => command.runOnTop top below
    | _, [] => ⟨[], none, some .underflow⟩

end Command

end SyntaxTree
