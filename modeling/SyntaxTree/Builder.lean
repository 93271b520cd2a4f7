import SyntaxTree.Node
import SyntaxTree.NodeError

/-!
Binary expressions made one part at a time. A later call of a setter replaces what an earlier one gave.
Building refuses an expression that lacks a part, looking for the left operand, the right operand and
the operator in this order, and logs the refusal.
-/

namespace SyntaxTree

inductive Level where
  | debug
deriving DecidableEq

/-- One entry of the log. -/
structure Event where
  level : Level
  message : String
  code : String
  kind? : Option Kind
  field? : Option String
deriving DecidableEq

/-- The entry for a refused node. -/
def NodeError.rejected (error : NodeError) : Event where
  level := .debug
  message := "rejected incomplete node"
  code := error.code
  kind? := error.kind?
  field? := error.field?

/-- The parts of a binary expression known so far. -/
structure Builder where
  left? : Option Node := none
  right? : Option Node := none
  operator? : Option String := none

namespace Builder

def left (b : Builder) (node : Node) : Builder := { b with left? := some node }

def right (b : Builder) (node : Node) : Builder := { b with right? := some node }

def operator (b : Builder) (text : String) : Builder := { b with operator? := some text }

/-- A result together with what was logged on the way. -/
abbrev Logged := ExceptT NodeError (StateM (List Event))

def reject {α : Type} (error : NodeError) : Logged α := do
  modify (· ++ [error.rejected])
  throw error

def require {α : Type} (part : Option α) (error : NodeError) : Logged α :=
  match part with
  | some value => pure value
  | none => reject error

/-- Makes the expression, if all of its parts are there. -/
def build (b : Builder) : Logged Node := do
  let left ← require b.left? (.missingPart "left")
  let right ← require b.right? (.missingPart "right")
  let operator ← require b.operator? (.missingOperator .binaryExpression)
  return .binary left operator right

/-- Builds with an empty log. -/
def run (b : Builder) : Except NodeError Node × List Event := b.build.run []

/-- A new builder that has the finished expression on its left; an unfinished one stays as it is. -/
def nest (b : Builder) : Builder :=
  match b.run.1 with
  | .ok node => left {} node
  | .error _ => b

end Builder

end SyntaxTree
