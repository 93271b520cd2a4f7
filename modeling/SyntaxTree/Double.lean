/-!
Binary64 numbers as a sign and a magnitude. The magnitude is the word without its sign bit, and it orders
the numbers: a larger magnitude is a larger absolute value, then comes infinity, then the patterns that are
no number. Its upper 11 bits are the exponent and its lower 52 the fraction, so a multiple of `2 ^ 52`,
which is `0x10000000000000`, starts each range of one exponent. Finite values are counted in steps of
`2 ^ -1074`.
-/

namespace SyntaxTree

/-- A binary64 bit pattern: the sign bit and the 63 bits below it. -/
structure Double where
  negative : Bool
  magnitude : Nat
  magnitude_lt : magnitude < 0x8000000000000000 := by decide
deriving DecidableEq

namespace Double

def infiniteMagnitude : Nat := 0x7FF0000000000000

/-- Reads a word whose highest bit is the sign. -/
def ofBits (word : UInt64) : Double where
  negative := decide (0x8000000000000000 ≤ word.toNat)
  magnitude := word.toNat % 0x8000000000000000
  magnitude_lt := Nat.mod_lt _ (by decide)

def infinity (negative : Bool) : Double := ⟨negative, infiniteMagnitude, by decide⟩

/-- The one pattern that stands for all that are no number. -/
def nan : Double := ⟨false, 0x7FF8000000000000, by decide⟩

def isFinite (x : Double) : Bool := decide (x.magnitude < infiniteMagnitude)

def isInfinite (x : Double) : Bool := decide (x.magnitude = infiniteMagnitude)

def isNaN (x : Double) : Bool := decide (infiniteMagnitude < x.magnitude)

/-- The same number, with every pattern that is no number replaced by `nan`. -/
def canonical (x : Double) : Double := if x.isNaN then nan else x

/-- Numeric comparison: what is no number equals nothing, and the two zeros are equal. -/
def eqv (x y : Double) : Bool :=
  !x.isNaN && !y.isNaN && (x == y || (x.magnitude == 0 && y.magnitude == 0))

/-- The smallest positive number is `2 ^ -stepBits`. -/
def stepBits : Nat := 1074

/-- The 53-bit factor of a finite magnitude. The leading bit is not stored, save that it is zero below the
first exponent. -/
def significand (magnitude : Nat) : Nat :=
  if magnitude < 0x10000000000000 then magnitude else 0x10000000000000 + magnitude % 0x10000000000000

/-- The power of two that scales the significand to a count of steps. -/
def scale (magnitude : Nat) : Nat := magnitude / 0x10000000000000 - 1

/-- The absolute value of a finite magnitude as a count of steps. -/
def units (magnitude : Nat) : Nat := significand magnitude <<< scale magnitude

theorem canonical_isNaN (x : Double) : x.canonical.isNaN = x.isNaN := by
  unfold canonical
  cases h : x.isNaN with
  | true => rw [if_pos rfl]; decide
  | false => simp [h]

end Double

end SyntaxTree
