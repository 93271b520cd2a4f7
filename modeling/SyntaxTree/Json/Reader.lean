import SyntaxTree.Json.Fault

/-!
Readers take what they read from the front of a text and give the characters after it, and stop at the
first fault. Blanks may stand between any two tokens.
-/

namespace SyntaxTree.Json

/-- Reads from the front of a text and returns the rest of it. -/
abbrev Reader (α : Type) := List Char → Except Fault (α × List Char)

def isBlank (c : Char) : Bool := c == ' ' || c == '\t' || c == '\n' || c == '\r'

def skipBlanks (cs : List Char) : List Char := cs.dropWhile isBlank

def readLiteral : List Char → List Char → Except Fault (List Char)
  | [], cs => .ok cs
  | _ :: _, [] => .error .endOfText
  | expected :: more, c :: cs => if c = expected then readLiteral more cs else .error .malformed

end SyntaxTree.Json
