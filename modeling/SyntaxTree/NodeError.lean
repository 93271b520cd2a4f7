import SyntaxTree.Kind

/-!
Why a node could not be made: a binary expression lacked an operand or its operator, or a text names
no kind. Every error has a message, a code, and where it applies the kind of node and the field.
-/

namespace SyntaxTree

inductive NodeError where
  | missingOperand (kind : Kind) (field : String)
  | missingOperator (kind : Kind)
  | unknownKind (tag : String)
deriving DecidableEq

namespace NodeError

/-- A binary expression lacks the operand with the given field name. -/
def missingPart (field : String) : NodeError := missingOperand .binaryExpression field

def message : NodeError → String
  | missingOperand kind field => kind.name ++ " is missing its `" ++ field ++ "` operand"
  | missingOperator kind => kind.name ++ " is missing its operator"
  | unknownKind tag => "unknown node kind: " ++ tag

def code : NodeError → String
  | missingOperand _ _ => "E-AST-001"
  | missingOperator _ => "E-AST-002"
  | unknownKind _ => "E-AST-003"

/-- The kind of the node that could not be made. -/
def kind? : NodeError → Option Kind
  | missingOperand kind _ => some kind
  | missingOperator kind => some kind
  | unknownKind _ => none

/-- The field that was never set. -/
def field? : NodeError → Option String
  | missingOperand _ field => some field
  | missingOperator _ => some "operator"
  | unknownKind _ => none

end NodeError

/-- The kind that a text names exactly. -/
def Kind.parse (name : String) : Except NodeError Kind :=
  match Kind.ofName? name with
  | some k => .ok k
  | none => .error (.unknownKind name)

end SyntaxTree
