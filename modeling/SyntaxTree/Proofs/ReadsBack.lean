import SyntaxTree.Proofs.Rounding

/-!
The shortest decimal of a finite magnitude rounds back to it. Every decimal that the search takes was
tried, and the last resort is the exact value; trailing zeros do not change a value. No decimal that the
search takes has more digits than the exact value, which has at most 767.
-/

namespace SyntaxTree

namespace Double

/-! ### The exact value and its digits -/

theorem value_exactDecimal (magnitude : Nat) :
    (exactDecimal magnitude).value * 2 ^ stepBits = units magnitude := by
  by_cases h : stepBits ≤ scale magnitude
  · have hvalue : (exactDecimal magnitude).value =
        significand magnitude * 2 ^ (scale magnitude - stepBits) := by
      simp only [exactDecimal, if_pos h, Decimal.value, Nat.shiftLeft_eq]
      push_cast
      rw [mul_one]
    rw [hvalue, units, Nat.shiftLeft_eq, mul_assoc, ← pow_add, Nat.sub_add_cancel h]
    push_cast
    rfl
  · obtain ⟨gap, hgap⟩ : ∃ gap, stepBits = scale magnitude + gap := ⟨stepBits - scale magnitude, by omega⟩
    have hvalue : (exactDecimal magnitude).value =
        significand magnitude * 5 ^ gap * (10 : ℚ) ^ (-(gap : Int)) := by
      simp only [exactDecimal, if_neg h, Decimal.value]
      rw [show (scale magnitude : Int) - stepBits = -(gap : Int) by omega,
        show stepBits - scale magnitude = gap by omega, show Nat.pow 5 gap = 5 ^ gap from rfl]
      push_cast
      rfl
    have hten : (10 : ℚ) ^ gap = 2 ^ gap * 5 ^ gap := by
      rw [← mul_pow]
      norm_num
    rw [hvalue, zpow_neg, zpow_natCast, hten, hgap, pow_add, units, Nat.shiftLeft_eq]
    push_cast
    field_simp

theorem significand_lt (magnitude : Nat) : significand magnitude < 2 ^ 53 := by
  simp only [significand]
  split <;> omega

theorem scale_le {magnitude : Nat} (h : magnitude < infiniteMagnitude) : scale magnitude ≤ stepBits + 971 := by
  simp only [infiniteMagnitude] at h
  simp only [scale, stepBits]
  omega

/-- The exact value of a finite number has at most 767 digits. -/
theorem digits_exactDecimal_lt {magnitude : Nat} (h : magnitude < infiniteMagnitude) :
    (exactDecimal magnitude).digits < 10 ^ 767 := by
  have hsignificand := significand_lt magnitude
  by_cases hscale : stepBits ≤ scale magnitude
  · have hshift : scale magnitude - stepBits ≤ 971 := by
      have := scale_le h
      omega
    simp only [exactDecimal, if_pos hscale, Nat.shiftLeft_eq]
    calc significand magnitude * 2 ^ (scale magnitude - stepBits)
        < 2 ^ 53 * 2 ^ (scale magnitude - stepBits) := Nat.mul_lt_mul_of_pos_right hsignificand (Nat.two_pow_pos _)
      _ = 2 ^ (53 + (scale magnitude - stepBits)) := (pow_add _ _ _).symm
      _ ≤ 10 ^ 767 := Decimal.two_pow_le_ten_pow (by omega)
  · simp only [exactDecimal, if_neg hscale]
    calc significand magnitude * 5 ^ (stepBits - scale magnitude)
        < 2 ^ 53 * 5 ^ (stepBits - scale magnitude) :=
          Nat.mul_lt_mul_of_pos_right hsignificand (Nat.pow_pos (by decide))
      _ ≤ 2 ^ 53 * 5 ^ stepBits := Nat.mul_le_mul_left _ (Nat.pow_le_pow_right (by decide) (Nat.sub_le _ _))
      _ ≤ 10 ^ 767 := by decide +kernel

theorem nearest_exactDecimal {magnitude : Nat} (h : magnitude < infiniteMagnitude) :
    (exactDecimal magnitude).nearest = magnitude :=
  Decimal.nearest_of_value h (value_exactDecimal magnitude)

/-! ### The search -/

theorem nearest_of_cutAt {tie : Tie} {magnitude dropped : Nat} {exact d : Decimal}
    (h : cutAt tie magnitude exact dropped = some d) : d.nearest = magnitude := by
  simp only [cutAt] at h
  split at h
  · rename_i hlow
    split at h
    · rename_i hhigh
      split at h
      · cases h
        exact hlow
      · split at h
        · cases h
          exact hhigh
        · cases h
          split
          · exact hhigh
          · exact hlow
    · cases h
      exact hlow
  · split at h
    · rename_i hhigh
      cases h
      exact hhigh
    · cases h

/-- A decimal that is cut off has one of the two digit counts around the cut. -/
theorem digits_of_cutAt {tie : Tie} {magnitude dropped : Nat} {exact d : Decimal}
    (h : cutAt tie magnitude exact dropped = some d) : d.digits ≤ exact.digits + 1 := by
  have hquotient : exact.digits / Nat.pow 10 dropped ≤ exact.digits := Nat.div_le_self _ _
  simp only [cutAt] at h
  repeat' split at h
  all_goals cases h
  all_goals simp only
  all_goals omega

variable {tie : Tie} {magnitude : Nat} {exact : Decimal}

theorem nearest_search (h : exact.nearest = magnitude) (dropped : Nat) :
    (search tie magnitude exact dropped).nearest = magnitude := by
  induction dropped with
  | zero => exact h
  | succ dropped ih =>
    rw [search]
    split
    · rename_i d hd
      exact nearest_of_cutAt hd
    · exact ih

theorem digits_search_le (dropped : Nat) :
    (search tie magnitude exact dropped).digits ≤ exact.digits + 1 := by
  induction dropped with
  | zero => exact Nat.le_succ _
  | succ dropped ih =>
    rw [search]
    split
    · rename_i d hd
      exact digits_of_cutAt hd
    · exact ih

end Double

namespace Decimal

/-! ### Trailing zeros -/

theorem value_trim (fuel : Nat) (d : Decimal) : (trim fuel d).value = d.value := by
  induction fuel generalizing d with
  | zero => rfl
  | succ fuel ih =>
    rw [trim]
    split
    · rename_i hzero
      rw [ih]
      obtain ⟨tens, htens⟩ : ∃ tens, d.digits = tens * 10 := ⟨d.digits / 10, by omega⟩
      simp only [value, htens, Nat.mul_div_cancel _ (show 0 < 10 by decide)]
      rw [zpow_add_one₀ (by norm_num)]
      push_cast
      ring
    · rfl

theorem digits_trim_le (fuel : Nat) (d : Decimal) : (trim fuel d).digits ≤ d.digits := by
  induction fuel generalizing d with
  | zero => exact Nat.le_refl _
  | succ fuel ih =>
    rw [trim]
    split
    · exact (ih _).trans (Nat.div_le_self _ _)
    · exact Nat.le_refl _

end Decimal

namespace Double

/-! ### The shortest decimal -/

theorem nearest_shortest (tie : Tie) {magnitude : Nat} (h : magnitude < infiniteMagnitude) :
    (shortest tie magnitude).nearest = magnitude := by
  unfold shortest
  split
  · rename_i hzero
    rw [hzero]
    rfl
  · rw [Decimal.nearest_congr (Decimal.value_trim _ _)]
    exact nearest_search (nearest_exactDecimal h) _

theorem digits_shortest_le (tie : Tie) {magnitude : Nat} (h : magnitude < infiniteMagnitude) :
    (shortest tie magnitude).digits ≤ 10 ^ 767 := by
  unfold shortest
  split
  · exact Nat.zero_le _
  · have hexact := digits_exactDecimal_lt h
    have hsearch : (search tie magnitude (exactDecimal magnitude)
        ((Nat.toDigits 10 (exactDecimal magnitude).digits).length - 1)).digits ≤
        (exactDecimal magnitude).digits + 1 := digits_search_le _
    exact (Decimal.digits_trim_le _ _).trans (hsearch.trans hexact)

/-- Only zero has no digits but zero, and it is written without an exponent. -/
theorem digits_shortest_ne_zero (tie : Tie) {magnitude : Nat} (h : magnitude < infiniteMagnitude) :
    (shortest tie magnitude).digits ≠ 0 ∨ (shortest tie magnitude).exponent = 0 := by
  by_cases hzero : magnitude = 0
  · right
    rw [shortest, if_pos hzero]
  · left
    intro hdigits
    have hnearest := nearest_shortest tie h
    rw [Decimal.nearest, if_pos hdigits] at hnearest
    omega

/-- The shortest decimal of a finite number, with its sign, is the number itself again. -/
theorem toDouble_shortest (tie : Tie) {x : Double} (h : x.isFinite = true) :
    (shortest tie x.magnitude).toDouble x.negative = x := by
  have hfinite : x.magnitude < infiniteMagnitude := of_decide_eq_true h
  have hnearest := nearest_shortest tie hfinite
  cases x
  simp only [Decimal.toDouble, mk.injEq, true_and]
  exact hnearest

end Double

end SyntaxTree
