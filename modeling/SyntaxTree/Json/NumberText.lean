import SyntaxTree.Json.Reader

/-!
Reading numbers. A number is read into its digits first; these give an integer if there is neither point
nor exponent, and otherwise the nearest binary64 number. Of a very long number only so many digits are
told apart as rounding may need.
-/

namespace SyntaxTree.Json

structure NumberText where
  negative : Bool
  whole : List Char
  fraction : List Char := []
  exponent : Option (Bool × List Char) := none

/-- Reads one or more digits; `unfinished` is the fault of a text that ends before them. -/
def readDigits (unfinished : Fault) : Reader (List Char)
  | [] => .error unfinished
  | c :: cs =>
    if c.isDigit then .ok ((c :: cs).takeWhile Char.isDigit, (c :: cs).dropWhile Char.isDigit)
    else .error .malformed

/-- Reads the digits before the point, of which the first is zero only if it is the only one. -/
def readWhole (unfinished : Fault) (cs : List Char) : Except Fault (List Char × List Char) := do
  let (whole, rest) ← readDigits unfinished cs
  match whole with
  | '0' :: _ :: _ => .error .malformed
  | _ => .ok (whole, rest)

/-- Reads a point and the digits after it, if there is a point. -/
def readFraction (unfinished : Fault) : Reader (List Char)
  | [] => .ok ([], [])
  | c :: cs => if c = '.' then readDigits unfinished cs else .ok ([], c :: cs)

/-- Reads a sign, if there is one; true is the minus sign. -/
def readExponentSign : List Char → Bool × List Char
  | [] => (false, [])
  | c :: cs => if c = '-' then (true, cs) else if c = '+' then (false, cs) else (false, c :: cs)

/-- Reads an exponent, if there is one. -/
def readExponent (unfinished : Fault) : Reader (Option (Bool × List Char))
  | [] => .ok (none, [])
  | c :: cs =>
    if c = 'e' ∨ c = 'E' then do
      let (negative, cs) := readExponentSign cs
      let (exponent, rest) ← readDigits unfinished cs
      .ok (some (negative, exponent), rest)
    else .ok (none, c :: cs)

/-- Reads a number after its sign. -/
def readNumberText (unfinished : Fault) (negative : Bool) (cs : List Char) :
    Except Fault (NumberText × List Char) := do
  let (whole, cs) ← readWhole unfinished cs
  let (fraction, cs) ← readFraction unfinished cs
  let (exponent, cs) ← readExponent unfinished cs
  .ok (⟨negative, whole, fraction, exponent⟩, cs)

namespace NumberText

/-- The exponent, zero if there is none. -/
def power (n : NumberText) : Int :=
  match n.exponent with
  | none => 0
  | some (true, exponent) => -(Nat.ofDigitChars 10 exponent 0 : Int)
  | some (false, exponent) => (Nat.ofDigitChars 10 exponent 0 : Int)

/-- The digits after the point, save the zeros at their end. -/
def places (n : NumberText) : List Char := (n.fraction.reverse.dropWhile (· == '0')).reverse

/-- How many digits of a number are told apart. A number halfway between two neighbouring binary64
numbers has no more, so of the digits beyond them rounding asks only whether there are any. -/
def digitLimit : Nat := 768

/-- The absolute value that is rounded. Digits beyond the limit count as a single one, also if they are
zeros before the point, so a number written that long never lies halfway and rounds up instead. -/
def decimal (n : NumberText) : Decimal :=
  let digits := (n.whole ++ n.places).dropWhile (· == '0')
  let exponent := n.power - n.places.length
  if digits.length ≤ digitLimit then ⟨Nat.ofDigitChars 10 digits 0, exponent⟩
  else
    ⟨Nat.ofDigitChars 10 (digits.take digitLimit ++ ['1']) 0,
      exponent + (digits.length - digitLimit - 1 : Nat)⟩

/-- The integer that a number without point and exponent denotes, if a word of 64 bits holds it, signed or
unsigned. A negative zero is no integer. -/
def integer? (n : NumberText) : Option Int :=
  if n.fraction = [] ∧ n.exponent = none then
    let whole := Nat.ofDigitChars 10 n.whole 0
    if n.negative then if 0 < whole ∧ whole ≤ 0x8000000000000000 then some (-(whole : Int)) else none
    else if whole < 0x10000000000000000 then some (whole : Int)
    else none
  else none

/-- The value as a binary64 number, which must not be infinite. -/
def float (n : NumberText) : Except Fault Value :=
  let x := n.decimal.toDouble n.negative
  if x.isFinite then .ok (.float x) else .error .malformed

/-- An integer if a word of 64 bits holds it, and otherwise a binary64 number. -/
def value (n : NumberText) : Except Fault Value :=
  match n.integer? with
  | some i => .ok (.integer i)
  | none => n.float

end NumberText

end SyntaxTree.Json
