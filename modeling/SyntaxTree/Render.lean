import SyntaxTree.Node
import SyntaxTree.Numeral

/-!
The canonical text of a tree. A binary expression stands in parentheses at every level and its parts
are one space apart; a program is its statements one after the other, with nothing between them; texts
are written as they are, those of strings between quotes.
-/

namespace SyntaxTree

namespace Node

mutual

/-- Writes the text of a node in front of `rest`. -/
def writeText : Node → List Char → List Char
  | program body, rest => writeTexts body rest
  | number value, rest => value.textChars ++ rest
  | null, rest => "null".toList ++ rest
  | identifier symbol, rest => symbol.toList ++ rest
  | binary left operator right, rest =>
    '(' :: left.writeText (' ' :: (operator.toList ++ ' ' :: right.writeText (')' :: rest)))
  | string value, rest => '"' :: (value.toList ++ '"' :: rest)

/-- Writes the texts of nodes, one after the other, in front of `rest`. -/
def writeTexts : List Node → List Char → List Char
  | [], rest => rest
  | node :: nodes, rest => node.writeText (writeTexts nodes rest)

end

def textChars (node : Node) : List Char := node.writeText []

def text (node : Node) : String := String.ofList node.textChars

mutual

theorem writeText_eq : ∀ (node : Node) (rest : List Char), node.writeText rest = node.textChars ++ rest
  | program body, rest => by
    rw [textChars, writeText, writeText, writeTexts_eq body rest, writeTexts_eq body []]
    simp
  | number value, rest => by simp [textChars, writeText]
  | null, rest => by simp [textChars, writeText]
  | identifier symbol, rest => by simp [textChars, writeText]
  | binary left operator right, rest => by
    simp only [textChars, writeText]
    rw [writeText_eq left, writeText_eq right, writeText_eq left (' ' :: _), writeText_eq right [')']]
    simp
  | string value, rest => by simp [textChars, writeText]

theorem writeTexts_eq : ∀ (nodes : List Node) (rest : List Char),
    writeTexts nodes rest = nodes.flatMap textChars ++ rest
  | [], rest => rfl
  | node :: nodes, rest => by
    rw [writeTexts, writeText_eq node, writeTexts_eq nodes, List.flatMap_cons, List.append_assoc]

end

theorem textChars_number (value : Double) : (number value).textChars = value.textChars := by
  rw [textChars, writeText, List.append_nil]

theorem textChars_identifier (symbol : String) : (identifier symbol).textChars = symbol.toList := by
  rw [textChars, writeText, List.append_nil]

theorem textChars_string (value : String) : (string value).textChars = '"' :: (value.toList ++ ['"']) := by
  rw [textChars, writeText]

/-- A program is written as its statements, with nothing between them. -/
theorem textChars_program (body : List Node) : (program body).textChars = body.flatMap textChars := by
  rw [textChars, writeText, writeTexts_eq, List.append_nil]

/-- A binary expression is written in parentheses, its parts one space apart. -/
theorem textChars_binary (left : Node) (operator : String) (right : Node) :
    (binary left operator right).textChars =
      '(' :: (left.textChars ++ ' ' :: (operator.toList ++ ' ' :: (right.textChars ++ [')']))) := by
  rw [textChars, writeText, writeText_eq, writeText_eq]

end Node

end SyntaxTree
