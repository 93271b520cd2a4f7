import SyntaxTree.Shortest
import Mathlib.Algebra.Order.Field.Power
import Mathlib.Data.Rat.Lemmas
import Mathlib.Tactic.FieldSimp
import Mathlib.Tactic.Linarith
import Mathlib.Tactic.NormNum
import Mathlib.Tactic.Positivity
import Mathlib.Tactic.Ring

/-!
Rounding looks at a value and not at how it is written. A fraction rounds as any multiple of it does,
the bounds by which large and small decimals are decided early agree with rounding them in full, and so two
decimals of one value round to one magnitude. The exact value of a finite magnitude rounds back to it.
-/

namespace SyntaxTree

/-! ### Fractions -/

theorem roundHalfEven_mul_right (numerator denominator : Nat) {k : Nat} (hk : 0 < k) :
    roundHalfEven (numerator * k) (denominator * k) = roundHalfEven numerator denominator := by
  have hlt : ∀ a b : Nat, 2 * (a * k) < b * k ↔ 2 * a < b := fun a b => by
    rw [← Nat.mul_assoc]
    exact Nat.mul_lt_mul_right hk
  have hgt : ∀ a b : Nat, b * k < 2 * (a * k) ↔ b < 2 * a := fun a b => by
    rw [← Nat.mul_assoc]
    exact Nat.mul_lt_mul_right hk
  simp only [roundHalfEven, Nat.mul_div_mul_right _ _ hk, Nat.mul_mod_mul_right, hlt, hgt]

theorem roundHalfEven_mul_self (quotient : Nat) {denominator : Nat} (h : 0 < denominator) :
    roundHalfEven (quotient * denominator) denominator = quotient := by
  simp [roundHalfEven, Nat.mul_div_cancel _ h, h]

theorem div_le_roundHalfEven (numerator denominator : Nat) :
    numerator / denominator ≤ roundHalfEven numerator denominator := by
  simp only [roundHalfEven]
  split
  · exact Nat.le_refl _
  · split <;> omega

theorem roundHalfEven_eq_zero {numerator denominator : Nat} (h : 2 * numerator < denominator) :
    roundHalfEven numerator denominator = 0 := by
  have hlt : numerator < denominator := by omega
  simp [roundHalfEven, Nat.div_eq_of_lt hlt, Nat.mod_eq_of_lt hlt, h]

namespace Double

theorem nearest_mul_right (numerator denominator : Nat) {k : Nat} (hk : 0 < k) :
    nearest (numerator * k) (denominator * k) = nearest numerator denominator := by
  have hsteps : (numerator * k) <<< stepBits = (numerator <<< stepBits) * k := by
    simp only [Nat.shiftLeft_eq]
    ring
  have hscaled : ∀ scale, (denominator * k) <<< scale = (denominator <<< scale) * k := fun scale => by
    simp only [Nat.shiftLeft_eq]
    ring
  simp only [nearest, hsteps, hscaled, Nat.mul_div_mul_right _ _ hk, roundHalfEven_mul_right _ _ hk]

theorem nearest_congr {a b c d : Nat} (hb : 0 < b) (hd : 0 < d) (h : a * d = c * b) :
    nearest a b = nearest c d := by
  rw [← nearest_mul_right a b hd, ← nearest_mul_right c d hb, h, Nat.mul_comm b d]

/-- What is at least `2 ^ 1024` rounds to infinity or beyond. -/
theorem infiniteMagnitude_le_nearest {numerator denominator : Nat} (hd : 0 < denominator)
    (h : denominator * 2 ^ 1024 ≤ numerator) : infiniteMagnitude ≤ nearest numerator denominator := by
  have hquotient : 2 ^ (1024 + stepBits) ≤ (numerator <<< stepBits) / denominator := by
    rw [Nat.le_div_iff_mul_le hd, Nat.shiftLeft_eq]
    calc 2 ^ (1024 + stepBits) * denominator = denominator * 2 ^ 1024 * 2 ^ stepBits := by
          rw [pow_add, Nat.mul_comm, ← Nat.mul_assoc]
      _ ≤ numerator * 2 ^ stepBits := Nat.mul_le_mul_right _ h
  set quotient := (numerator <<< stepBits) / denominator with hq
  have hpos : quotient ≠ 0 := by
    have : 0 < 2 ^ (1024 + stepBits) := Nat.two_pow_pos _
    omega
  have hlog : 1024 + stepBits ≤ quotient.log2 := (Nat.le_log2 hpos).mpr hquotient
  have hlow : 2 ^ 52 ≤ roundHalfEven (numerator <<< stepBits) (denominator <<< (quotient.log2 - 52)) := by
    refine le_trans ?_ (div_le_roundHalfEven _ _)
    rw [Nat.shiftLeft_eq denominator, ← Nat.div_div_eq_div_mul, ← hq,
      Nat.le_div_iff_mul_le (Nat.two_pow_pos _), ← pow_add]
    calc 2 ^ (52 + (quotient.log2 - 52)) = 2 ^ quotient.log2 := by
          congr 1
          simp only [stepBits] at hlog
          omega
      _ ≤ quotient := Nat.log2_self_le hpos
  simp only [nearest, ← hq, infiniteMagnitude]
  simp only [stepBits] at hlog
  omega

/-- What is below half a step rounds to zero. -/
theorem nearest_eq_zero {numerator denominator : Nat} (h : numerator * 2 ^ (stepBits + 1) < denominator) :
    nearest numerator denominator = 0 := by
  have hsteps : 2 * (numerator <<< stepBits) < denominator := by
    rw [Nat.shiftLeft_eq]
    calc 2 * (numerator * 2 ^ stepBits) = numerator * 2 ^ (stepBits + 1) := by
          rw [pow_succ]
          ring
      _ < denominator := h
  have hquotient : (numerator <<< stepBits) / denominator = 0 := Nat.div_eq_of_lt (by omega)
  simp [nearest, hquotient, roundHalfEven_eq_zero hsteps]

/-! ### The exact value -/

theorem scale_mul_add_significand (magnitude : Nat) :
    scale magnitude * 0x10000000000000 + significand magnitude = magnitude := by
  simp only [scale, significand]
  split <;> omega

/-- The leading bit of a finite value stands 52 places above its scale, or below that at scale zero. -/
theorem log2_units (magnitude : Nat) : (units magnitude).log2 - 52 = scale magnitude := by
  by_cases h : magnitude < 0x10000000000000
  · have hscale : scale magnitude = 0 := by
      simp only [scale]
      omega
    have hunits : units magnitude = magnitude := by
      simp [units, significand, h, hscale]
    have hlog : magnitude.log2 < 52 := by
      by_cases hzero : magnitude = 0
      · simp [hzero]
      · exact (Nat.log2_lt hzero).mpr h
    rw [hunits, hscale]
    omega
  · have hsignificand : significand magnitude = 2 ^ 52 + magnitude % 2 ^ 52 := if_neg h
    have hmod : magnitude % 2 ^ 52 < 2 ^ 52 := Nat.mod_lt _ (Nat.two_pow_pos _)
    have hlog : (units magnitude).log2 = 52 + scale magnitude := by
      rw [units, Nat.shiftLeft_eq, hsignificand, Nat.log2_eq_iff (by positivity)]
      constructor
      · rw [pow_add]
        exact Nat.mul_le_mul_right _ (by omega)
      · rw [show 52 + scale magnitude + 1 = 53 + scale magnitude by omega, pow_add]
        exact Nat.mul_lt_mul_of_pos_right (by omega) (Nat.two_pow_pos _)
    omega

theorem nearest_units {magnitude numerator denominator : Nat} (hd : 0 < denominator)
    (h : numerator * 2 ^ stepBits = units magnitude * denominator) :
    nearest numerator denominator = magnitude := by
  have hsteps : numerator <<< stepBits = units magnitude * denominator := by rw [Nat.shiftLeft_eq, h]
  have hscaled : units magnitude * denominator =
      significand magnitude * (denominator <<< scale magnitude) := by
    simp only [units, Nat.shiftLeft_eq]
    ring
  have hpos : 0 < denominator <<< scale magnitude := by
    rw [Nat.shiftLeft_eq]
    positivity
  simp only [nearest, hsteps, Nat.mul_div_cancel _ hd, log2_units]
  rw [hscaled, roundHalfEven_mul_self _ hpos, scale_mul_add_significand]

end Double

namespace Decimal

/-! ### Decimals -/

def value (d : Decimal) : ℚ := d.digits * (10 : ℚ) ^ d.exponent

/-- The value as a fraction whose denominator is a power of ten. -/
def numerator (d : Decimal) : Nat := d.digits * 10 ^ d.exponent.toNat

def denominator (d : Decimal) : Nat := 10 ^ (-d.exponent).toNat

theorem denominator_pos (d : Decimal) : 0 < d.denominator := Nat.pow_pos (by decide)

theorem value_mul_denominator (d : Decimal) : d.value * d.denominator = d.numerator := by
  simp only [value, numerator, denominator]
  push_cast
  rw [mul_assoc, ← zpow_natCast (10 : ℚ) (-d.exponent).toNat, ← zpow_natCast (10 : ℚ) d.exponent.toNat,
    ← zpow_add₀ (by norm_num)]
  congr 2
  omega

theorem numerator_mul_denominator {d e : Decimal} (h : d.value = e.value) :
    d.numerator * e.denominator = e.numerator * d.denominator := by
  have hcast : (d.numerator * e.denominator : ℚ) = e.numerator * d.denominator := by
    rw [← value_mul_denominator, ← value_mul_denominator, h]
    ring
  exact_mod_cast hcast

theorem two_pow_le_ten_pow {n k : Nat} (h : n ≤ 3 * k) : 2 ^ n ≤ 10 ^ k :=
  calc 2 ^ n ≤ 2 ^ (3 * k) := Nat.pow_le_pow_right (by decide) h
    _ = 8 ^ k := by rw [pow_mul]; rfl
    _ ≤ 10 ^ k := Nat.pow_le_pow_left (by decide) k

/-- Every decimal with an exponent above 400 is too large. -/
theorem infiniteMagnitude_le_of_exponent {d : Decimal} (hdigits : d.digits ≠ 0) (h : 400 < d.exponent) :
    Double.infiniteMagnitude ≤ Double.nearest d.numerator d.denominator := by
  apply Double.infiniteMagnitude_le_nearest d.denominator_pos
  have hdenominator : d.denominator = 1 := by
    simp only [denominator, show (-d.exponent).toNat = 0 by omega, pow_zero]
  calc d.denominator * 2 ^ 1024 = 2 ^ 1024 := by rw [hdenominator, Nat.one_mul]
    _ ≤ 10 ^ d.exponent.toNat := two_pow_le_ten_pow (by omega)
    _ ≤ d.numerator := Nat.le_mul_of_pos_left _ (Nat.pos_of_ne_zero hdigits)

/-- A decimal whose exponent outweighs its digits by so much is below half a step. -/
theorem nearest_eq_zero_of_exponent {d : Decimal} (h : d.exponent + d.digits.log2 < -400) :
    Double.nearest d.numerator d.denominator = 0 := by
  apply Double.nearest_eq_zero
  have hnumerator : d.numerator = d.digits := by
    simp only [numerator, show d.exponent.toNat = 0 by omega, pow_zero, Nat.mul_one]
  have hdigits : d.digits < 2 ^ (d.digits.log2 + 1) := Nat.lt_log2_self
  calc d.numerator * 2 ^ (Double.stepBits + 1)
      < 2 ^ (d.digits.log2 + 1) * 2 ^ (Double.stepBits + 1) := by
        rw [hnumerator]
        exact Nat.mul_lt_mul_of_pos_right hdigits (Nat.two_pow_pos _)
    _ = 2 ^ (d.digits.log2 + 1 + (Double.stepBits + 1)) := (pow_add _ _ _).symm
    _ ≤ d.denominator := two_pow_le_ten_pow (by simp only [Double.stepBits]; omega)

/-- The early decisions on large and small decimals are what rounding in full gives. -/
theorem nearest_eq_min (d : Decimal) :
    d.nearest = min Double.infiniteMagnitude (Double.nearest d.numerator d.denominator) := by
  have hfull : (if 0 ≤ d.exponent then Double.nearest (d.digits * Nat.pow 10 d.exponent.toNat) 1
      else Double.nearest d.digits (Nat.pow 10 (-d.exponent).toNat)) =
        Double.nearest d.numerator d.denominator := by
    simp only [numerator, denominator]
    split
    · rw [show (-d.exponent).toNat = 0 by omega]
      rfl
    · rw [show d.exponent.toNat = 0 by omega, pow_zero, Nat.mul_one]
      rfl
  unfold nearest
  rw [hfull]
  split
  · rename_i hzero
    have hnumerator : d.numerator = 0 := by rw [numerator, hzero, Nat.zero_mul]
    rw [hnumerator, Double.nearest_eq_zero (by rw [Nat.zero_mul]; exact d.denominator_pos), Nat.min_zero]
  · rename_i hdigits
    split
    · rename_i hlarge
      rw [Nat.min_eq_left (infiniteMagnitude_le_of_exponent hdigits hlarge)]
    · split
      · rename_i hsmall
        rw [nearest_eq_zero_of_exponent hsmall, Nat.min_zero]
      · rfl

theorem nearest_congr {d e : Decimal} (h : d.value = e.value) : d.nearest = e.nearest := by
  rw [nearest_eq_min, nearest_eq_min,
    Double.nearest_congr d.denominator_pos e.denominator_pos (numerator_mul_denominator h)]

theorem nearest_of_value {d : Decimal} {magnitude : Nat} (hfinite : magnitude < Double.infiniteMagnitude)
    (h : d.value * 2 ^ Double.stepBits = Double.units magnitude) : d.nearest = magnitude := by
  have hcast : (d.numerator * 2 ^ Double.stepBits : ℚ) = Double.units magnitude * d.denominator := by
    rw [← value_mul_denominator, ← h]
    ring
  rw [nearest_eq_min, Double.nearest_units d.denominator_pos (by exact_mod_cast hcast)]
  omega

end Decimal

end SyntaxTree
