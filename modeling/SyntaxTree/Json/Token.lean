import SyntaxTree.Json.Escape
import SyntaxTree.Json.NumberText

/-!
Reading scalars and opening brackets. Scalars are read under one of two rules: in full, or for their
grammar alone, where no number is too large and an escape may be half of a pair.
-/

namespace SyntaxTree.Json

/-- How closely scalars are looked at. -/
structure Rules where
  byNumber : Escape
  number : NumberText → Except Fault Value
  unfinished : Fault

/-- Strings and numbers are read in full. -/
def Rules.full : Rules := ⟨numberEscape, NumberText.value, .endOfText⟩

/-- Strings and numbers are read for their grammar only. A number that lacks a digit breaks the grammar
also where the text ends. -/
def Rules.grammar : Rules := ⟨digitsEscape, fun _ => .ok .null, .malformed⟩

/-- A scalar, or the bracket that opens an array or an object. -/
inductive Token where
  | scalar (value : Value)
  | openArray
  | openObject

/-- Reads a string after its opening quote. -/
def readString (rules : Rules) (cs : List Char) : Except Fault (String × List Char) := do
  let (read, rest) ← readStringChars (escapeWith rules.byNumber) 0 [] cs
  .ok (String.ofList read, rest)

/-- Reads a number after its sign. -/
def readNumber (rules : Rules) (negative : Bool) (cs : List Char) : Except Fault (Token × List Char) := do
  let (text, rest) ← readNumberText rules.unfinished negative cs
  let value ← rules.number text
  .ok (.scalar value, rest)

/-- Reads the rest of a word that stands for a value. -/
def readWord (rest : List Char) (value : Value) (cs : List Char) : Except Fault (Token × List Char) := do
  let cs ← readLiteral rest cs
  .ok (.scalar value, cs)

/-- Reads the token after the blanks at the front of a text. -/
def readToken (rules : Rules) (cs : List Char) : Except Fault (Token × List Char) :=
  match skipBlanks cs with
  | [] => .error .endOfText
  | c :: cs =>
    if c = '"' then do
      let (text, rest) ← readString rules cs
      .ok (.scalar (.string text), rest)
    else if c = '[' then .ok (.openArray, cs)
    else if c = '{' then .ok (.openObject, cs)
    else if c = '-' then readNumber rules true cs
    else if c.isDigit then readNumber rules false (c :: cs)
    else if c = 'n' then readWord ['u', 'l', 'l'] .null cs
    else if c = 't' then readWord ['r', 'u', 'e'] (.bool true) cs
    else if c = 'f' then readWord ['a', 'l', 's', 'e'] (.bool false) cs
    else .error .malformed

end SyntaxTree.Json
