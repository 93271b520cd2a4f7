import SyntaxTree.Decimal

/-!
The shortest decimal that rounds back to a binary64 number, and of those the nearest. The exact
value of a finite number is itself a decimal. Cutting its last digits gives the two decimals around
it on a coarser grid; the coarsest grid on which one of the two rounds back holds the answer, since
a decimal of that grid that rounds back leaves no room for the nearer of its two neighbours to miss.
-/

namespace SyntaxTree

/-- Which of two decimals at the same distance from a value is taken. -/
inductive Tie where
  | above
  | even
deriving DecidableEq

/-- Whether a value halfway between `low` and its successor goes up. -/
def Tie.goesUp : Tie → Nat → Bool
  | .above, _ => true
  | .even, low => low % 2 == 1

namespace Double

/-- The exact value of a finite magnitude. -/
def exactDecimal (magnitude : Nat) : Decimal :=
  if stepBits ≤ scale magnitude then ⟨significand magnitude <<< (scale magnitude - stepBits), 0⟩
  else ⟨significand magnitude * Nat.pow 5 (stepBits - scale magnitude), (scale magnitude : Int) - stepBits⟩

/-- Of the two decimals around `exact` with `dropped` digits fewer, the nearer one that rounds to
`magnitude`. -/
def cutAt (tie : Tie) (magnitude : Nat) (exact : Decimal) (dropped : Nat) : Option Decimal :=
  let step := Nat.pow 10 dropped
  let quotient := exact.digits / step
  let remainder := exact.digits % step
  let low : Decimal := ⟨quotient, exact.exponent + dropped⟩
  let high : Decimal := ⟨quotient + 1, exact.exponent + dropped⟩
  if low.nearest = magnitude then
    if high.nearest = magnitude then
      if 2 * remainder < step then some low
      else if step < 2 * remainder then some high
      else some (if tie.goesUp quotient then high else low)
    else some low
  else if high.nearest = magnitude then some high
  else none

/-- Tries the grids from the one with `dropped` digits fewer down to the exact value. -/
def search (tie : Tie) (magnitude : Nat) (exact : Decimal) : Nat → Decimal
  | 0 => exact
  | dropped + 1 =>
    match cutAt tie magnitude exact (dropped + 1) with
    | some d => d
    | none => search tie magnitude exact dropped

/-- The shortest decimal that rounds to a finite magnitude, the nearest of these, without trailing
zeros. -/
def shortest (tie : Tie) (magnitude : Nat) : Decimal :=
  if magnitude = 0 then ⟨0, 0⟩
  else
    let exact := exactDecimal magnitude
    let count := (Nat.toDigits 10 exact.digits).length
    (search tie magnitude exact (count - 1)).trim count

end Double

end SyntaxTree
