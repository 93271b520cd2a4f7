import SyntaxTree.Proofs.PositionalText

/-!
How large a number is by its text. Its value is below the power of ten that the digits before the point and the
exponent give, whatever the other digits are, and what is below `10 ^ 250` does not round to infinity. So the text of
a finite number is still that of a finite number when its exponent loses digits.
-/

namespace SyntaxTree

open Json

namespace Decimal

/-- What is below `10 ^ 250` does not round to infinity. -/
theorem nearest_lt_of_value_lt {d : Decimal} (h : d.value < 10 ^ 250) : d.nearest < Double.infiniteMagnitude := by
  rw [nearest_lt_iff]
  calc d.value < 10 ^ 250 := h
    _ ≤ 10 ^ (3 * 84) := pow_le_pow_right₀ (by norm_num) (by decide)
    _ = 1000 ^ 84 := by rw [pow_mul]; norm_num
    _ ≤ 1024 ^ 84 := pow_le_pow_left₀ (by norm_num) (by norm_num) 84
    _ = 2 ^ (10 * 84) := by rw [pow_mul]; norm_num
    _ ≤ 2 ^ 970 := pow_le_pow_right₀ (by norm_num) (by decide)
    _ ≤ Double.overflow := Double.le_overflow

/-- A decimal that rounds to a finite number has its first digit below `10 ^ 400`. -/
theorem leadingExponent_lt {d : Decimal} (hdigits : d.digits ≠ 0) (h : d.nearest < Double.infiniteMagnitude) :
    d.leadingExponent < 400 := by
  have hpow : (10 : ℚ) ^ d.leadingExponent < 10 ^ (400 : ℤ) := by
    calc (10 : ℚ) ^ d.leadingExponent ≤ d.value := ten_pow_leadingExponent_le hdigits
      _ < Double.overflow := nearest_lt_iff.mp h
      _ ≤ 10 ^ 400 := Double.overflow_le
      _ = 10 ^ (400 : ℤ) := (zpow_natCast 10 400).symm
  exact (zpow_lt_zpow_iff_right₀ (by norm_num)).mp hpow

end Decimal

namespace Json.NumberText

/-- The value of a number's text is below the power of ten that its digits before the point reach. -/
theorem value_decimal_lt {n : NumberText} (hdigits : ∀ c ∈ n.whole ++ n.fraction, c.isDigit = true) :
    n.decimal.value < (10 : ℚ) ^ (n.whole.length + n.power) := by
  have hlength : n.digits.length ≤ n.whole.length + n.places.length :=
    (List.dropWhile_sublist _).length_le.trans List.length_append.le
  rw [decimal_eq]
  split
  · apply Decimal.value_lt (ofDigitChars_lt (isDigit_digits hdigits))
    dsimp only
    omega
  · rename_i hmany
    have htake : ∀ c ∈ n.digits.take digitLimit ++ ['1'], c.isDigit = true := by
      intro c hc
      rcases List.mem_append.mp hc with hc | hc
      · exact isDigit_digits hdigits c (List.mem_of_mem_take hc)
      · cases List.mem_singleton.mp hc
        rfl
    apply Decimal.value_lt (ofDigitChars_lt htake)
    rw [List.length_append, List.length_take, List.length_singleton, Nat.min_eq_left (by omega)]
    dsimp only
    omega

/-- A number whose digits before the point reach no higher than `10 ^ 250` is finite. -/
theorem isFinite_double {n : NumberText} (hn : n.WellFormed) (h : n.whole.length + n.power ≤ 250) :
    n.double.isFinite = true := by
  apply decide_eq_true
  apply Decimal.nearest_lt_of_value_lt
  calc n.decimal.value < (10 : ℚ) ^ (n.whole.length + n.power) := value_decimal_lt hn.isDigit
    _ ≤ (10 : ℚ) ^ ((250 : ℕ) : ℤ) := zpow_le_zpow_right₀ (by norm_num) h
    _ = 10 ^ 250 := zpow_natCast _ _

end Json.NumberText

end SyntaxTree
