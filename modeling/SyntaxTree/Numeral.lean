import SyntaxTree.Shortest

/-!
Number texts. A decimal is laid out with its point in place and zeros where needed, or with one digit
before the point and an exponent. Canonical text always uses the first layout and JSON the second one
for very large and very small numbers; both show the shortest digits that round back.
-/

namespace SyntaxTree

namespace Decimal

def digitChars (d : Decimal) : List Char := Nat.toDigits 10 d.digits

/-- The power of ten of the first digit. -/
def leadingExponent (d : Decimal) : Int := d.exponent + d.digitChars.length - 1

/-- All digits around the point, padded with zeros; there is no point without digits after it. -/
def positional (d : Decimal) : List Char :=
  if 0 ≤ d.exponent then d.digitChars ++ List.replicate d.exponent.toNat '0'
  else
    let places := (-d.exponent).toNat
    let padded := List.replicate (places + 1 - d.digitChars.length) '0' ++ d.digitChars
    padded.take (padded.length - places) ++ '.' :: padded.drop (padded.length - places)

/-- One digit, the others after a point, and the exponent with its sign. -/
def scientific (d : Decimal) : List Char :=
  let exponent := (if 0 ≤ d.leadingExponent then '+' else '-') :: Nat.toDigits 10 d.leadingExponent.natAbs
  match d.digitChars with
  | [] => 'e' :: exponent
  | [first] => first :: 'e' :: exponent
  | first :: rest => first :: '.' :: (rest ++ 'e' :: exponent)

/-- The JSON layout: positional from `10 ^ -5` to below `10 ^ 16`, an integer ending in `.0`. -/
def compact (d : Decimal) : List Char :=
  if -5 ≤ d.leadingExponent ∧ d.leadingExponent ≤ 15 then
    d.positional ++ (if 0 ≤ d.exponent then ['.', '0'] else [])
  else d.scientific

end Decimal

namespace Double

def signChars (negative : Bool) : List Char := if negative then ['-'] else []

/-- The canonical text of a number: positional, and a word for what is not finite. -/
def textChars (x : Double) : List Char :=
  if x.isNaN then "NaN".toList
  else if x.isInfinite then if x.negative then "-Inf".toList else "+Inf".toList
  else signChars x.negative ++ (shortest .above x.magnitude).positional

/-- The JSON text of a finite number; JSON has only `null` for the others. -/
def jsonChars (x : Double) : List Char :=
  if x.isFinite then signChars x.negative ++ (shortest .even x.magnitude).compact
  else "null".toList

def text (x : Double) : String := String.ofList x.textChars

/-- The number that is not finite with a given text. -/
def ofName? (name : String) : Option Double :=
  if name = "NaN" then some nan
  else if name = "+Inf" then some (infinity false)
  else if name = "-Inf" then some (infinity true)
  else none

end Double

end SyntaxTree
