/-!
The closed set of node kinds and their names. A name is also the tag of a node in JSON, and the order
of the kinds is their index there.
-/

namespace SyntaxTree

/-- What a node is. -/
inductive Kind where
  | program
  | numericLiteral
  | nullLiteral
  | identifier
  | binaryExpression
  | stringLiteral
deriving DecidableEq, Repr

namespace Kind

/-- All kinds, by index. -/
def all : List Kind :=
  [program, numericLiteral, nullLiteral, identifier, binaryExpression, stringLiteral]

def name : Kind → String
  | program => "Program"
  | numericLiteral => "NumericLiteral"
  | nullLiteral => "NullLiteral"
  | identifier => "Identifier"
  | binaryExpression => "BinaryExpression"
  | stringLiteral => "StringLiteral"

/-- Leaves have no children, whatever they hold. -/
def isLeaf : Kind → Bool
  | program | binaryExpression => false
  | _ => true

def index (k : Kind) : Nat := all.idxOf k

def ofName? (name : String) : Option Kind := all.find? fun k => k.name == name

def ofIndex? (index : Nat) : Option Kind := all[index]?

/-- The names of the members that a record of a kind has in JSON, in the order of writing. -/
def fields : Kind → List String
  | program => ["body"]
  | numericLiteral => ["value"]
  | nullLiteral => []
  | identifier => ["symbol"]
  | binaryExpression => ["left", "right", "operator"]
  | stringLiteral => ["value"]

theorem name_inj {k l : Kind} (h : k.name = l.name) : k = l := by
  revert h
  cases k <;> cases l <;> decide

theorem ofName?_eq_some_iff {name : String} {k : Kind} : ofName? name = some k ↔ k.name = name := by
  constructor
  · intro h
    simpa using List.find?_some h
  · rintro rfl
    cases k <;> decide

end Kind

end SyntaxTree
