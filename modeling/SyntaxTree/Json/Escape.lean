import SyntaxTree.Json.Reader

/-!
Reading strings. A backslash starts an escape, by a letter or by the number of a UTF-16 code unit; a
character outside the first plane takes two of these. What an escape stands for is a parameter, so that a
string can also be read for its grammar alone.
-/

namespace SyntaxTree.Json

def hexDigit? (c : Char) : Option Nat :=
  if c.isDigit then some (c.toNat - '0'.toNat)
  else if 'a' ≤ c ∧ c ≤ 'f' then some (c.toNat - 'a'.toNat + 10)
  else if 'A' ≤ c ∧ c ≤ 'F' then some (c.toNat - 'A'.toNat + 10)
  else none

/-- The length of a text in UTF-8. -/
def byteLength (cs : List Char) : Nat := cs.foldr (fun c length => c.utf8Size + length) 0

/-- The code unit that four hexadecimal digits at the front of a text give. A text of less than four
bytes ends too early, whatever it holds. -/
def codeUnit : List Char → Except Fault Nat
  | a :: b :: c :: d :: _ =>
    match hexDigit? a, hexDigit? b, hexDigit? c, hexDigit? d with
    | some a, some b, some c, some d => .ok (((a * 16 + b) * 16 + c) * 16 + d)
    | _, _, _, _ => .error .malformed
  | cs => if byteLength cs < 4 then .error .endOfText else .error .malformed

def isHighSurrogate (unit : Nat) : Bool := decide (0xD800 ≤ unit ∧ unit < 0xDC00)

def isLowSurrogate (unit : Nat) : Bool := decide (0xDC00 ≤ unit ∧ unit < 0xE000)

/-- The low half of a pair of escapes, at the front of a text. -/
def lowSurrogate : List Char → Except Fault Nat
  | [] => .error .endOfText
  | c :: cs =>
    if c = '\\' then
      match cs with
      | [] => .error .endOfText
      | u :: cs =>
        if u = 'u' then do
          let unit ← codeUnit cs
          if isLowSurrogate unit then .ok unit else .error .malformed
        else .error .malformed
    else .error .malformed

/-- The character that a letter after a backslash stands for. -/
def letterEscape? (c : Char) : Option Char :=
  if c = '"' ∨ c = '\\' ∨ c = '/' then some c
  else if c = 'b' then some (Char.ofNat 8)
  else if c = 'f' then some (Char.ofNat 12)
  else if c = 'n' then some '\n'
  else if c = 'r' then some '\r'
  else if c = 't' then some '\t'
  else none

/-- What an escape stands for, given the text after its backslash, and how many characters of that text
it takes. -/
abbrev Escape := List Char → Except Fault (Char × Nat)

/-- An escape by number: a code unit, or two that make a pair. -/
def numberEscape (cs : List Char) : Except Fault (Char × Nat) := do
  let unit ← codeUnit cs
  if isLowSurrogate unit then .error .malformed
  else if isHighSurrogate unit then do
    let low ← lowSurrogate (cs.drop 4)
    .ok (Char.ofNat (0x10000 + (unit - 0xD800) * 0x400 + (low - 0xDC00)), 11)
  else .ok (Char.ofNat unit, 5)

/-- An escape by number of which only the digits matter. -/
def digitsEscape (cs : List Char) : Except Fault (Char × Nat) := do
  let _ ← codeUnit cs
  .ok ('u', 5)

/-- An escape by letter, or by number under the given rule. -/
def escapeWith (byNumber : Escape) : Escape
  | [] => .error .endOfText
  | c :: cs =>
    if c = 'u' then byNumber cs
    else
      match letterEscape? c with
      | some e => .ok (e, 1)
      | none => .error .malformed

/-- Reads a string up to its closing quote. `taken` counts the characters that belong to an escape read
before, and `read` holds the characters of the string in reverse. -/
def readStringChars (escape : Escape) : Nat → List Char → Reader (List Char)
  | _, _, [] => .error .endOfText
  | taken + 1, read, _ :: cs => readStringChars escape taken read cs
  | 0, read, c :: cs =>
    if c = '"' then .ok (read.reverse, cs)
    else if c = '\\' then
      match escape cs with
      | .error fault => .error fault
      | .ok (e, taken) => readStringChars escape taken (e :: read) cs
    else if c.toNat < 0x20 then .error .malformed
    else readStringChars escape 0 (c :: read) cs

end SyntaxTree.Json
