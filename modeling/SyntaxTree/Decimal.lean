import SyntaxTree.Double

/-!
Decimal numbers `digits * 10 ^ exponent` and the binary64 number nearest to one. Rounding works on
exact fractions: the quotient is counted in steps of `2 ^ -1074`, its leading bits give the scale, and the
significand is the quotient at that scale, rounded with halves to the even neighbour.
-/

namespace SyntaxTree

/-- The natural number nearest to `numerator / denominator`, a half going to the even one. -/
def roundHalfEven (numerator denominator : Nat) : Nat :=
  let quotient := numerator / denominator
  let remainder := numerator % denominator
  if 2 * remainder < denominator then quotient
  else if denominator < 2 * remainder then quotient + 1
  else quotient + quotient % 2

namespace Double

/-- The magnitude nearest to a fraction. It may pass `infiniteMagnitude`, as if there were no
largest exponent. -/
def nearest (numerator denominator : Nat) : Nat :=
  let steps := numerator <<< stepBits
  let scale := (steps / denominator).log2 - 52
  scale * 0x10000000000000 + roundHalfEven steps (denominator <<< scale)

end Double

/-- The number `digits * 10 ^ exponent`. -/
structure Decimal where
  digits : Nat
  exponent : Int
deriving DecidableEq

namespace Decimal

/-- The magnitude nearest to a decimal, and `Double.infiniteMagnitude` if that is too large. Numbers
beyond `10 ^ 400` and below `10 ^ -400` are decided by their exponent alone. -/
def nearest (d : Decimal) : Nat :=
  if d.digits = 0 then 0
  else if 400 < d.exponent then Double.infiniteMagnitude
  else if d.exponent + d.digits.log2 < -400 then 0
  else
    min Double.infiniteMagnitude
      (if 0 ≤ d.exponent then Double.nearest (d.digits * Nat.pow 10 d.exponent.toNat) 1
      else Double.nearest d.digits (Nat.pow 10 (-d.exponent).toNat))

theorem nearest_le (d : Decimal) : d.nearest ≤ Double.infiniteMagnitude := by
  unfold nearest
  split
  · exact Nat.zero_le _
  · split
    · exact Nat.le_refl _
    · split
      · exact Nat.zero_le _
      · exact Nat.min_le_left _ _

/-- The binary64 number nearest to a decimal with the given sign, a half going to the even one. It is
infinite if the decimal rounds past the largest finite number. -/
def toDouble (negative : Bool) (d : Decimal) : Double where
  negative := negative
  magnitude := d.nearest
  magnitude_lt := Nat.lt_of_le_of_lt d.nearest_le (by decide)

theorem isNaN_toDouble (negative : Bool) (d : Decimal) : (d.toDouble negative).isNaN = false :=
  decide_eq_false (Nat.not_lt.mpr d.nearest_le)

/-- Writes the same number without trailing zeros; `fuel` bounds how many are taken away. -/
def trim : Nat → Decimal → Decimal
  | 0, d => d
  | fuel + 1, d => if d.digits % 10 = 0 then trim fuel ⟨d.digits / 10, d.exponent + 1⟩ else d

end Decimal

namespace Double

def ofInt (n : Int) : Double := Decimal.toDouble (decide (n < 0)) ⟨n.natAbs, 0⟩

end Double

end SyntaxTree
