import SyntaxTree.Proofs.ReadsBack
import Mathlib.Algebra.Order.Ring.Abs

/-!
What rounding to nearest means, apart from how it is done. The magnitudes up to infinity stand for growing absolute
values, infinity itself for the power of two after the largest finite number. The nearest of them to a value is the
one that no other is closer to, and an even one if another is as close. There is exactly one, rounding finds it, and
whatever lies between a value and its nearest magnitude has the same one. The values from halfway above the largest
finite number on have infinity for their nearest.
-/

namespace SyntaxTree

/-! ### Quotients -/

/-- A quotient is rounded by a half at most, and to an even number if by just a half. -/
theorem roundHalfEven_error (numerator : Nat) {denominator : Nat} (h : 0 < denominator) :
    |(numerator / denominator : ℚ) - roundHalfEven numerator denominator| ≤ 1 / 2 ∧
    (|(numerator / denominator : ℚ) - roundHalfEven numerator denominator| = 1 / 2 →
      roundHalfEven numerator denominator % 2 = 0) := by
  have hpos : (0 : ℚ) < denominator := by exact_mod_cast h
  have hremainder : numerator % denominator < denominator := Nat.mod_lt _ h
  have hsplit : (numerator / denominator : ℚ) =
      (numerator / denominator : ℕ) + (numerator % denominator : ℕ) / denominator := by
    have hcast : (numerator : ℚ) = denominator * (numerator / denominator : ℕ) + (numerator % denominator : ℕ) := by
      exact_mod_cast (Nat.div_add_mod numerator denominator).symm
    rw [eq_comm, ← sub_eq_zero]
    field_simp
    linarith
  unfold roundHalfEven
  dsimp only
  generalize numerator / denominator = quotient at hsplit ⊢
  generalize numerator % denominator = remainder at hsplit hremainder ⊢
  set part : ℚ := (remainder : ℚ) / denominator with hpart
  have hdouble : (2 * remainder : ℚ) = 2 * part * denominator := by
    rw [hpart]
    field_simp
  rw [hsplit]
  split
  · rename_i hlow
    have hlt : part < 1 / 2 := by
      have hcast : (2 * remainder : ℚ) < denominator := by exact_mod_cast hlow
      rw [hdouble] at hcast
      nlinarith
    rw [add_sub_cancel_left, abs_of_nonneg (by positivity)]
    exact ⟨hlt.le, fun heq => absurd heq hlt.ne⟩
  · split
    · rename_i hhigh
      have hgt : 1 / 2 < part := by
        have hcast : (denominator : ℚ) < 2 * remainder := by exact_mod_cast hhigh
        rw [hdouble] at hcast
        nlinarith
      have hlt : part < 1 := by
        rw [hpart, div_lt_one hpos]
        exact_mod_cast hremainder
      have herror : |quotient + part - ((quotient + 1 : ℕ) : ℚ)| = 1 - part := by
        push_cast
        rw [abs_of_neg (by linarith)]
        ring
      rw [herror]
      exact ⟨by linarith, fun heq => by linarith⟩
    · have hhalf : part = 1 / 2 := by
        have hcast : (2 * remainder : ℚ) = denominator := by
          have heq : 2 * remainder = denominator := by omega
          exact_mod_cast heq
        rw [hdouble] at hcast
        nlinarith
      refine ⟨?_, fun _ => by omega⟩
      rw [hhalf]
      rcases Nat.mod_two_eq_zero_or_one quotient with heven | hodd
      · rw [heven, Nat.add_zero, add_sub_cancel_left]
        norm_num
      · rw [hodd]
        push_cast
        norm_num

/-- What is within a half of a whole number is as close to no other, unless it is just a half away. -/
theorem abs_sub_lt_of_half {value : ℚ} {rounded other : ℕ} (h : |value - rounded| ≤ 1 / 2) (hne : other ≠ rounded) :
    |value - rounded| < |value - other| ∨ |value - rounded| = 1 / 2 ∧ |value - rounded| ≤ |value - other| := by
  have hapart : (1 : ℚ) ≤ |(rounded : ℚ) - other| := by
    have hint : (1 : ℤ) ≤ |(rounded : ℤ) - other| := by
      have hdiffer : (rounded : ℤ) - other ≠ 0 := by omega
      exact Int.one_le_abs hdiffer
    exact_mod_cast hint
  have htriangle : |(rounded : ℚ) - other| ≤ |value - rounded| + |value - other| := by
    have hadd := abs_add_le ((rounded : ℚ) - value) (value - other)
    rwa [sub_add_sub_cancel, abs_sub_comm (rounded : ℚ) value] at hadd
  rcases h.lt_or_eq with hlt | heq
  · exact .inl (by linarith)
  · exact .inr ⟨heq, by linarith⟩

namespace Double

/-! ### Magnitudes -/

/-- The absolute value of a magnitude; infinity counts as the power of two after the finite numbers. -/
def absolute (magnitude : Nat) : ℚ := units magnitude / 2 ^ stepBits

/-- A count of steps at a scale, from the first with a leading bit up to the first of the next scale. -/
theorem units_scaled {scale count : Nat} (hlow : scale = 0 ∨ 0x10000000000000 ≤ count)
    (hhigh : count ≤ 0x20000000000000) : units (scale * 0x10000000000000 + count) = count * 2 ^ scale := by
  rcases hhigh.lt_or_eq with hlt | rfl
  · have hscale : Double.scale (scale * 0x10000000000000 + count) = scale := by
      simp only [Double.scale]
      omega
    have hsignificand : significand (scale * 0x10000000000000 + count) = count := by
      simp only [significand]
      split <;> omega
    rw [units, hscale, hsignificand, Nat.shiftLeft_eq]
  · have hscale : Double.scale (scale * 0x10000000000000 + 0x20000000000000) = scale + 1 := by
      simp only [Double.scale]
      omega
    have hsignificand : significand (scale * 0x10000000000000 + 0x20000000000000) = 0x10000000000000 := by
      simp only [significand]
      split <;> omega
    rw [units, hscale, hsignificand, Nat.shiftLeft_eq, pow_succ]
    omega

theorem scale_eq_zero_or_le_significand (magnitude : Nat) :
    scale magnitude = 0 ∨ 0x10000000000000 ≤ significand magnitude := by
  simp only [scale, significand]
  split <;> omega

/-- The next magnitude stands for one more step of its scale. -/
theorem units_succ (magnitude : Nat) : units (magnitude + 1) = (significand magnitude + 1) * 2 ^ scale magnitude := by
  have hsplit := scale_mul_add_significand magnitude
  have hlow := scale_eq_zero_or_le_significand magnitude
  have hhigh : significand magnitude + 1 ≤ 0x20000000000000 := significand_lt magnitude
  rw [← units_scaled (hlow.imp id fun h => h.trans (Nat.le_succ _)) hhigh, ← Nat.add_assoc, hsplit]

theorem units_strictMono : StrictMono units := by
  apply strictMono_nat_of_lt_succ
  intro magnitude
  rw [units_succ, units, Nat.shiftLeft_eq]
  exact Nat.mul_lt_mul_of_pos_right (Nat.lt_succ_self _) (Nat.two_pow_pos _)

theorem absolute_strictMono : StrictMono absolute := by
  intro magnitude other h
  have hunits : (units magnitude : ℚ) < units other := by exact_mod_cast units_strictMono h
  exact div_lt_div_of_pos_right hunits (by positivity)

theorem absolute_nonneg (magnitude : Nat) : 0 ≤ absolute magnitude := by
  unfold absolute
  positivity

/-! ### The nearest magnitude -/

/-- The nearest magnitude to a value: no other is closer, and if another is as close, it is an even one. -/
structure IsNearest (value : ℚ) (magnitude : Nat) : Prop where
  le_infinite : magnitude ≤ infiniteMagnitude
  closest : ∀ other ≤ infiniteMagnitude, |value - absolute magnitude| ≤ |value - absolute other|
  even : ∀ other ≤ infiniteMagnitude, other ≠ magnitude →
    |value - absolute other| = |value - absolute magnitude| → magnitude % 2 = 0

section

variable (numerator : Nat) {denominator : Nat}

/-- The scale at which a fraction is rounded, counted from that of the smallest numbers. -/
def roundingScale (numerator denominator : Nat) : Nat := ((numerator <<< stepBits) / denominator).log2 - 52

/-- How many steps of its scale a fraction is rounded to. -/
def roundedCount (numerator denominator : Nat) : Nat :=
  roundHalfEven (numerator <<< stepBits) (denominator <<< roundingScale numerator denominator)

theorem nearest_eq (numerator denominator : Nat) : nearest numerator denominator =
    roundingScale numerator denominator * 0x10000000000000 + roundedCount numerator denominator := rfl

theorem roundingScale_eq_zero_or_le (hd : 0 < denominator) :
    roundingScale numerator denominator = 0 ∨
      denominator * 2 ^ (52 + roundingScale numerator denominator) ≤ numerator * 2 ^ stepBits := by
  rw [or_iff_not_imp_left]
  intro hscale
  have hlog : 52 + roundingScale numerator denominator = ((numerator <<< stepBits) / denominator).log2 := by
    unfold roundingScale at hscale ⊢
    omega
  have hne : (numerator <<< stepBits) / denominator ≠ 0 := by
    intro hzero
    rw [roundingScale, hzero] at hscale
    exact hscale (by decide)
  rw [hlog, ← Nat.shiftLeft_eq numerator, Nat.mul_comm, ← Nat.le_div_iff_mul_le hd]
  exact Nat.log2_self_le hne

theorem lt_roundingScale (hd : 0 < denominator) :
    numerator * 2 ^ stepBits < denominator * 2 ^ (53 + roundingScale numerator denominator) := by
  rw [← Nat.shiftLeft_eq numerator, Nat.mul_comm, ← Nat.div_lt_iff_lt_mul hd]
  calc (numerator <<< stepBits) / denominator < 2 ^ (((numerator <<< stepBits) / denominator).log2 + 1) :=
        Nat.lt_log2_self
    _ ≤ 2 ^ (53 + roundingScale numerator denominator) :=
        Nat.pow_le_pow_right (by decide) (by unfold roundingScale; omega)

/-- A fraction as a count of steps of the scale at which it is rounded. -/
def scaled (numerator denominator : Nat) : ℚ :=
  (numerator <<< stepBits : ℕ) / (denominator <<< roundingScale numerator denominator : ℕ)

theorem scaled_error (hd : 0 < denominator) :
    |scaled numerator denominator - roundedCount numerator denominator| ≤ 1 / 2 ∧
    (|scaled numerator denominator - roundedCount numerator denominator| = 1 / 2 →
      roundedCount numerator denominator % 2 = 0) := by
  apply roundHalfEven_error
  rw [Nat.shiftLeft_eq]
  positivity

theorem scaled_bounds (hd : 0 < denominator) :
    (roundingScale numerator denominator = 0 ∨ 0x10000000000000 ≤ scaled numerator denominator) ∧
      scaled numerator denominator < 0x20000000000000 := by
  have hpos : (0 : ℚ) < (denominator <<< roundingScale numerator denominator : ℕ) := by
    rw [Nat.shiftLeft_eq]
    exact_mod_cast Nat.mul_pos hd (Nat.two_pow_pos _)
  constructor
  · refine (roundingScale_eq_zero_or_le numerator hd).imp id fun hle => ?_
    rw [scaled, le_div_iff₀ hpos, Nat.shiftLeft_eq, Nat.shiftLeft_eq]
    rw [pow_add] at hle
    exact_mod_cast le_trans (le_of_eq (by ring)) hle
  · have hlt := lt_roundingScale numerator hd
    rw [scaled, div_lt_iff₀ hpos, Nat.shiftLeft_eq, Nat.shiftLeft_eq]
    rw [pow_add] at hlt
    exact_mod_cast lt_of_lt_of_le hlt (le_of_eq (by ring))

/-- A fraction rounds to as many steps of its scale as its magnitude stands for. -/
theorem units_nearest (hd : 0 < denominator) : units (nearest numerator denominator) =
    roundedCount numerator denominator * 2 ^ roundingScale numerator denominator := by
  obtain ⟨hlow, hhigh⟩ := scaled_bounds numerator hd
  obtain ⟨habove, hbelow⟩ := abs_le.mp (scaled_error numerator hd).1
  rw [nearest_eq, units_scaled]
  · refine hlow.imp id fun hlow => ?_
    have hlt : (0x10000000000000 : ℚ) < roundedCount numerator denominator + 1 := by linarith
    exact Nat.lt_succ_iff.mp (by exact_mod_cast hlt)
  · have hlt : (roundedCount numerator denominator : ℚ) < 0x20000000000000 + 1 := by linarith
    exact Nat.lt_succ_iff.mp (by exact_mod_cast hlt)

/-- A magnitude stands for a whole count of steps of the scale of a fraction, or for less than any value there. -/
theorem units_eq_mul_or_lt (hd : 0 < denominator) (other : Nat) :
    (∃ count, units other = count * 2 ^ roundingScale numerator denominator) ∨
      (0x10000000000000 : ℚ) ≤ scaled numerator denominator ∧
        units other < 0x10000000000000 * 2 ^ roundingScale numerator denominator := by
  by_cases hscale : roundingScale numerator denominator ≤ scale other
  · refine .inl ⟨significand other * 2 ^ (scale other - roundingScale numerator denominator), ?_⟩
    rw [units, Nat.shiftLeft_eq, Nat.mul_assoc, ← pow_add, Nat.sub_add_cancel hscale]
  · refine .inr ⟨(scaled_bounds numerator hd).1.resolve_left (by omega), ?_⟩
    obtain ⟨more, hmore⟩ : ∃ more, roundingScale numerator denominator = scale other + 1 + more :=
      ⟨roundingScale numerator denominator - (scale other + 1), by omega⟩
    calc units other < 2 ^ 53 * 2 ^ scale other := by
          rw [units, Nat.shiftLeft_eq]
          exact Nat.mul_lt_mul_of_pos_right (significand_lt other) (Nat.two_pow_pos _)
      _ = 0x10000000000000 * 2 ^ (scale other + 1) := by ring
      _ ≤ 0x10000000000000 * 2 ^ roundingScale numerator denominator :=
          Nat.mul_le_mul_left _ (Nat.pow_le_pow_right (by decide) (by omega))

/-- No other magnitude is as close to a fraction as the one it rounds to, unless that one is even. -/
theorem nearest_closest (hd : 0 < denominator) {other : Nat} (hne : other ≠ nearest numerator denominator) :
    let error := |(numerator / denominator : ℚ) - absolute (nearest numerator denominator)|
    error < |(numerator / denominator : ℚ) - absolute other| ∨
      error ≤ |(numerator / denominator : ℚ) - absolute other| ∧ nearest numerator denominator % 2 = 0 := by
  set step : ℚ := 2 ^ roundingScale numerator denominator / 2 ^ stepBits with hstep
  have hpos : 0 < step := by positivity
  set count := roundedCount numerator denominator with hcount
  have hvalue : (numerator / denominator : ℚ) = scaled numerator denominator * step := by
    have hdenominator : (denominator : ℚ) ≠ 0 := by exact_mod_cast hd.ne'
    rw [scaled, hstep, Nat.shiftLeft_eq, Nat.shiftLeft_eq]
    push_cast
    field_simp
  have habsolute : absolute (nearest numerator denominator) = count * step := by
    rw [absolute, units_nearest numerator hd, hstep, hcount]
    push_cast
    ring
  have hscaled : ∀ number : ℚ, |(numerator / denominator : ℚ) - number * step| =
      |scaled numerator denominator - number| * step := by
    intro number
    rw [hvalue, ← sub_mul, abs_mul, abs_of_pos hpos]
  obtain ⟨herror, htie⟩ := scaled_error numerator hd
  have heven : |scaled numerator denominator - count| = 1 / 2 → nearest numerator denominator % 2 = 0 := by
    intro hhalf
    have hcountEven := htie hhalf
    rw [nearest_eq]
    omega
  intro error
  have herrorEq : error = |scaled numerator denominator - count| * step := by
    rw [← hscaled, ← habsolute]
  rcases units_eq_mul_or_lt numerator hd other with ⟨number, hnumber⟩ | ⟨hlow, hlt⟩
  · have hother : absolute other = number * step := by
      rw [absolute, hnumber, hstep]
      push_cast
      ring
    have hdiffer : number ≠ count := by
      rintro rfl
      exact hne (absolute_strictMono.injective (hother.trans habsolute.symm))
    rw [herrorEq, hother, hscaled]
    rcases abs_sub_lt_of_half herror hdiffer with hcloser | ⟨hhalf, hclose⟩
    · exact .inl (mul_lt_mul_of_pos_right hcloser hpos)
    · exact .inr ⟨mul_le_mul_of_nonneg_right hclose hpos.le, heven hhalf⟩
  · -- The first value of the scale lies between, and the count is no further than it.
    have hother : absolute other < 0x10000000000000 * step := by
      have hcast : (units other : ℚ) < 0x10000000000000 * 2 ^ roundingScale numerator denominator := by
        exact_mod_cast hlt
      rw [absolute, hstep, ← mul_div_assoc]
      exact div_lt_div_of_pos_right hcast (by positivity)
    have hfirst : |scaled numerator denominator - count| ≤
        |scaled numerator denominator - (0x10000000000000 : ℕ)| := by
      by_cases hsame : 0x10000000000000 = count
      · rw [hsame]
      · rcases abs_sub_lt_of_half herror hsame with hcloser | ⟨-, hclose⟩
        · exact hcloser.le
        · exact hclose
    have hbetween : 0x10000000000000 * step ≤ scaled numerator denominator * step :=
      mul_le_mul_of_nonneg_right hlow hpos.le
    left
    calc error ≤ |scaled numerator denominator - (0x10000000000000 : ℕ)| * step := by
          rw [herrorEq]
          exact mul_le_mul_of_nonneg_right hfirst hpos.le
      _ = scaled numerator denominator * step - 0x10000000000000 * step := by
          rw [abs_of_nonneg (by push_cast; linarith)]
          push_cast
          ring
      _ < |(numerator / denominator : ℚ) - absolute other| := by
          rw [hvalue, abs_of_nonneg (by linarith)]
          linarith

end

/-! ### Closer to one of two -/

section

variable {low high value : ℚ}

theorem abs_sub_high_le_iff (h : low < high) : |value - high| ≤ |value - low| ↔ low + high ≤ 2 * value := by
  have hfactor : (value - low) ^ 2 - (value - high) ^ 2 = (high - low) * (2 * value - (low + high)) := by ring
  rw [← sq_le_sq, ← sub_nonneg, hfactor, mul_nonneg_iff_of_pos_left (sub_pos.mpr h), sub_nonneg]

theorem abs_sub_low_le_iff (h : low < high) : |value - low| ≤ |value - high| ↔ 2 * value ≤ low + high := by
  have hfactor : (value - high) ^ 2 - (value - low) ^ 2 = (high - low) * (low + high - 2 * value) := by ring
  rw [← sq_le_sq, ← sub_nonneg, hfactor, mul_nonneg_iff_of_pos_left (sub_pos.mpr h), sub_nonneg]

end

/-! ### Rounding finds the nearest -/

/-- A fraction rounds to the magnitude nearest to it, and to infinity if it is too large. -/
theorem isNearest_min (numerator : Nat) {denominator : Nat} (hd : 0 < denominator) :
    IsNearest (numerator / denominator) (min infiniteMagnitude (nearest numerator denominator)) := by
  rcases le_or_gt (nearest numerator denominator) infiniteMagnitude with hle | hgt
  · rw [Nat.min_eq_right hle]
    refine ⟨hle, fun other _ => ?_, fun other _ hne heq => ?_⟩
    · by_cases hsame : other = nearest numerator denominator
      · rw [hsame]
      · rcases nearest_closest numerator hd hsame with hlt | ⟨hclose, -⟩
        · exact hlt.le
        · exact hclose
    · rcases nearest_closest numerator hd hne with hlt | ⟨-, heven⟩
      · exact absurd heq hlt.ne'
      · exact heven
  · rw [Nat.min_eq_left hgt.le]
    refine ⟨le_rfl, fun other hother => ?_, fun _ _ _ _ => by decide⟩
    have hlow : absolute other ≤ absolute infiniteMagnitude := absolute_strictMono.monotone hother
    have hhigh : absolute infiniteMagnitude < absolute (nearest numerator denominator) := absolute_strictMono hgt
    have hcloser : |(numerator / denominator : ℚ) - absolute (nearest numerator denominator)| ≤
        |(numerator / denominator : ℚ) - absolute infiniteMagnitude| := by
      rcases nearest_closest numerator hd hgt.ne with hlt | ⟨hclose, -⟩
      · exact hlt.le
      · exact hclose
    rw [abs_sub_high_le_iff hhigh] at hcloser
    rw [abs_of_nonneg (by linarith), abs_of_nonneg (by linarith)]
    linarith

namespace IsNearest

variable {value : ℚ} {magnitude : Nat}

/-- Two even magnitudes have an odd one between them, which is closer to a value halfway. -/
theorem not_lt {other : Nat} (h : IsNearest value magnitude) (hother : IsNearest value other) :
    ¬magnitude < other := by
  intro hlt
  have heq : |value - absolute other| = |value - absolute magnitude| :=
    le_antisymm (hother.closest _ h.le_infinite) (h.closest _ hother.le_infinite)
  have heven : magnitude % 2 = 0 := h.even other hother.le_infinite hlt.ne' heq
  have hotherEven : other % 2 = 0 := hother.even magnitude h.le_infinite hlt.ne heq.symm
  have hbetween : magnitude + 1 < other := by omega
  have hhalf := (abs_sub_high_le_iff (absolute_strictMono hlt)).mp heq.le
  have hnext := h.closest (magnitude + 1) (hbetween.le.trans hother.le_infinite)
  rw [abs_sub_low_le_iff (absolute_strictMono (Nat.lt_succ_self _))] at hnext
  have hincrease : absolute (magnitude + 1) < absolute other := absolute_strictMono hbetween
  linarith

theorem unique {other : Nat} (h : IsNearest value magnitude) (hother : IsNearest value other) : magnitude = other :=
  le_antisymm (Nat.not_lt.mp (hother.not_lt h)) (Nat.not_lt.mp (h.not_lt hother))

/-- What lies between a value and its nearest magnitude has the same one. -/
theorem between {middle : ℚ} (h : IsNearest value magnitude) (hmiddle : middle ∈ Set.uIcc value (absolute magnitude)) :
    IsNearest middle magnitude := by
  have hsplit : |value - absolute magnitude| = |value - middle| + |middle - absolute magnitude| := by
    rcases Set.mem_uIcc.mp hmiddle with ⟨hlow, hhigh⟩ | ⟨hlow, hhigh⟩
    · rw [abs_of_nonpos (by linarith), abs_of_nonpos (by linarith), abs_of_nonpos (by linarith)]
      ring
    · rw [abs_of_nonneg (by linarith), abs_of_nonneg (by linarith), abs_of_nonneg (by linarith)]
      ring
  refine ⟨h.le_infinite, fun other hother => ?_, fun other hother hne heq => h.even other hother hne ?_⟩
  · have hclosest := h.closest other hother
    have htriangle := abs_sub_le value middle (absolute other)
    linarith
  · have hclosest := h.closest other hother
    have htriangle := abs_sub_le value middle (absolute other)
    linarith

end IsNearest

/-! ### What is too large -/

theorem absolute_infiniteMagnitude : absolute infiniteMagnitude = 2 ^ 1024 := by
  have hunits : units infiniteMagnitude = 0x10000000000000 * 2 ^ (stepBits + 972) := by
    rw [show infiniteMagnitude = (stepBits + 972) * 0x10000000000000 + 0x10000000000000 from rfl,
      units_scaled (.inr le_rfl) (by decide)]
  have hcount : ((0x10000000000000 : ℕ) : ℚ) = 2 ^ 52 := by norm_num
  rw [absolute, hunits, div_eq_iff (by positivity), Nat.cast_mul, hcount, Nat.cast_pow, Nat.cast_ofNat, ← pow_add,
    ← pow_add]
  rfl

/-- The largest finite number is one step of its scale below the next power of two. -/
theorem absolute_largest : absolute (infiniteMagnitude - 1) = 2 ^ 1024 - 2 ^ 971 := by
  have hunits : units (infiniteMagnitude - 1) = 0x1FFFFFFFFFFFFF * 2 ^ (stepBits + 971) := by
    rw [show infiniteMagnitude - 1 = (stepBits + 971) * 0x10000000000000 + 0x1FFFFFFFFFFFFF from rfl,
      units_scaled (.inr (by decide)) (by decide)]
  have hcount : ((0x1FFFFFFFFFFFFF : ℕ) : ℚ) = 2 ^ 53 - 1 := by norm_num
  rw [absolute, hunits, div_eq_iff (by positivity), Nat.cast_mul, hcount, Nat.cast_pow, Nat.cast_ofNat, sub_mul,
    sub_mul, one_mul, ← pow_add, ← pow_add, ← pow_add, Nat.add_comm stepBits]
  rfl

/-- Halfway from the largest finite number to the next power of two. -/
def overflow : ℚ := 2 ^ 1024 - 2 ^ 970

theorem le_overflow : 2 ^ 970 ≤ overflow := by
  have htwice : (2 : ℚ) ^ 970 + 2 ^ 970 ≤ 2 ^ 1024 := by
    rw [← two_mul, ← pow_succ']
    exact pow_le_pow_right₀ (by norm_num) (by decide)
  exact le_sub_iff_add_le.mpr htwice

theorem overflow_le : overflow ≤ 10 ^ 400 := by
  have hnat : 2 ^ 1024 ≤ 10 ^ 400 := Decimal.two_pow_le_ten_pow (by decide)
  have hpos : (0 : ℚ) ≤ 2 ^ 970 := by positivity
  calc overflow ≤ 2 ^ 1024 := sub_le_self _ hpos
    _ = ((2 ^ 1024 : ℕ) : ℚ) := by rw [Nat.cast_pow, Nat.cast_ofNat]
    _ ≤ ((10 ^ 400 : ℕ) : ℚ) := Nat.cast_le.mpr hnat
    _ = 10 ^ 400 := by rw [Nat.cast_pow, Nat.cast_ofNat]

/-- An integer that does not round to infinity has at most 400 digits. -/
theorem lt_ten_pow_of_lt_overflow {count power : ℕ} (hpower : 400 ≤ power) (h : count < overflow) :
    count < 10 ^ power := by
  have hcast : (count : ℚ) < ((10 ^ power : ℕ) : ℚ) := by
    calc (count : ℚ) < overflow := h
      _ ≤ 10 ^ 400 := overflow_le
      _ ≤ 10 ^ power := pow_le_pow_right₀ (by norm_num) hpower
      _ = ((10 ^ power : ℕ) : ℚ) := by rw [Nat.cast_pow, Nat.cast_ofNat]
  exact Nat.cast_lt.mp hcast

/-- The nearest magnitude is finite just below `overflow`. -/
theorem IsNearest.lt_infiniteMagnitude_iff {value : ℚ} {magnitude : Nat} (h : IsNearest value magnitude) :
    magnitude < infiniteMagnitude ↔ value < overflow := by
  have hhalfway : absolute (infiniteMagnitude - 1) + absolute infiniteMagnitude = 2 * overflow := by
    rw [absolute_largest, absolute_infiniteMagnitude, overflow, mul_sub, ← pow_succ' 2 970, two_mul,
      sub_add_eq_add_sub]
  have hlast : absolute (infiniteMagnitude - 1) < absolute infiniteMagnitude := absolute_strictMono (by decide)
  constructor
  · intro hfinite
    have hle : absolute magnitude ≤ absolute (infiniteMagnitude - 1) :=
      absolute_strictMono.monotone (Nat.le_sub_one_of_lt hfinite)
    have hclosest := h.closest infiniteMagnitude le_rfl
    rw [abs_sub_low_le_iff (absolute_strictMono hfinite)] at hclosest
    apply lt_of_le_of_ne (by linarith)
    -- Halfway, the nearest magnitude is the even one, and the largest finite one is odd.
    rintro rfl
    have hlargest : magnitude = infiniteMagnitude - 1 := absolute_strictMono.injective (by linarith)
    have heq : |overflow - absolute infiniteMagnitude| = |overflow - absolute magnitude| := by
      apply le_antisymm
      · rw [abs_sub_high_le_iff (absolute_strictMono hfinite), hlargest, hhalfway]
      · exact h.closest infiniteMagnitude le_rfl
    have heven := h.even infiniteMagnitude le_rfl hfinite.ne' heq
    rw [hlargest] at heven
    revert heven
    decide
  · intro hlt
    apply lt_of_le_of_ne h.le_infinite
    rintro rfl
    have hclosest := h.closest (infiniteMagnitude - 1) (Nat.sub_le _ _)
    rw [abs_sub_high_le_iff hlast] at hclosest
    linarith

/-! ### Integers -/

/-- The integers up to `2 ^ 53` are absolute values of magnitudes. -/
theorem exists_absolute_eq_natCast {count : Nat} (h : count ≤ 2 ^ 53) :
    ∃ magnitude ≤ infiniteMagnitude, absolute magnitude = count := by
  by_cases hzero : count = 0
  · refine ⟨0, by decide, ?_⟩
    rw [hzero, absolute, show units 0 = 0 by decide, Nat.cast_zero, zero_div]
  · obtain ⟨power, hpower, hlow, hhigh⟩ : ∃ power ≤ 52, 2 ^ power ≤ count ∧ count ≤ 2 ^ (power + 1) := by
      by_cases hlog : count.log2 ≤ 52
      · exact ⟨count.log2, hlog, Nat.log2_self_le hzero, Nat.lt_log2_self.le⟩
      · refine ⟨52, le_rfl, ?_, h⟩
        exact (Nat.pow_le_pow_right (by decide) (by omega)).trans (Nat.log2_self_le hzero)
    obtain ⟨rest, hrest⟩ : ∃ rest, power + rest = 52 := ⟨52 - power, by omega⟩
    have hfirst : 0x10000000000000 ≤ count * 2 ^ rest :=
      calc 0x10000000000000 = 2 ^ power * 2 ^ rest := by rw [← pow_add, hrest]; rfl
        _ ≤ count * 2 ^ rest := Nat.mul_le_mul_right _ hlow
    have hlast : count * 2 ^ rest ≤ 0x20000000000000 :=
      calc count * 2 ^ rest ≤ 2 ^ (power + 1) * 2 ^ rest := Nat.mul_le_mul_right _ hhigh
        _ = 0x20000000000000 := by rw [← pow_add, show power + 1 + rest = 53 by omega]; rfl
    refine ⟨(power + 1022) * 0x10000000000000 + count * 2 ^ rest, ?_, ?_⟩
    · simp only [infiniteMagnitude]
      omega
    · rw [absolute, units_scaled (.inr hfirst) hlast, Nat.mul_assoc, ← pow_add, div_eq_iff (by positivity),
        show rest + (power + 1022) = stepBits by simp only [stepBits]; omega]
      push_cast
      rfl

/-- Only numbers below `2 ^ 53` are not integers. -/
theorem absolute_integer_or_lt (magnitude : Nat) :
    (∃ count : ℕ, absolute magnitude = count) ∨ absolute magnitude < 2 ^ 53 := by
  rcases Nat.lt_or_ge (scale magnitude) stepBits with hlt | hge
  · right
    rw [absolute, div_lt_iff₀ (by positivity), units, Nat.shiftLeft_eq]
    have hunits : significand magnitude * 2 ^ scale magnitude < 2 ^ 53 * 2 ^ stepBits :=
      calc significand magnitude * 2 ^ scale magnitude < 2 ^ 53 * 2 ^ scale magnitude :=
            Nat.mul_lt_mul_of_pos_right (significand_lt magnitude) (Nat.two_pow_pos _)
        _ ≤ 2 ^ 53 * 2 ^ stepBits := Nat.mul_le_mul_left _ (Nat.pow_le_pow_right (by decide) hlt.le)
    exact_mod_cast hunits
  · left
    refine ⟨significand magnitude * 2 ^ (scale magnitude - stepBits), ?_⟩
    rw [absolute, div_eq_iff (by positivity), units, Nat.shiftLeft_eq]
    push_cast
    rw [mul_assoc, ← pow_add, Nat.sub_add_cancel hge]

/-! ### Numbers with a sign -/

/-- A number is what a value of a given sign rounds to: the nearest one, and the even one of two. -/
structure RoundsTo (negative : Bool) (value : ℚ) (x : Double) : Prop where
  sign : x.negative = negative
  nearest : IsNearest value x.magnitude

namespace RoundsTo

variable {negative : Bool} {value : ℚ} {x y : Double}

theorem unique (hx : RoundsTo negative value x) (hy : RoundsTo negative value y) : x = y := by
  have hsign : x.negative = y.negative := hx.sign.trans hy.sign.symm
  have hmagnitude : x.magnitude = y.magnitude := hx.nearest.unique hy.nearest
  cases x
  cases y
  simp only at hsign hmagnitude
  simp only [hsign, hmagnitude]

theorem isFinite_iff (h : RoundsTo negative value x) : x.isFinite = true ↔ value < overflow := by
  rw [isFinite, decide_eq_true_eq]
  exact h.nearest.lt_infiniteMagnitude_iff

end RoundsTo

end Double

namespace Decimal

theorem isNearest_nearest (d : Decimal) : Double.IsNearest d.value d.nearest := by
  have hpos : (d.denominator : ℚ) ≠ 0 := by exact_mod_cast d.denominator_pos.ne'
  have hvalue : d.value = d.numerator / d.denominator := by
    rw [← value_mul_denominator, mul_div_cancel_right₀ _ hpos]
  rw [hvalue, nearest_eq_min]
  exact Double.isNearest_min d.numerator d.denominator_pos

theorem nearest_eq_iff {d : Decimal} {magnitude : Nat} :
    d.nearest = magnitude ↔ Double.IsNearest d.value magnitude := by
  constructor
  · rintro rfl
    exact d.isNearest_nearest
  · exact fun h => d.isNearest_nearest.unique h

/-- A decimal rounds to a finite number just below the limit. -/
theorem nearest_lt_iff {d : Decimal} : d.nearest < Double.infiniteMagnitude ↔ d.value < Double.overflow :=
  d.isNearest_nearest.lt_infiniteMagnitude_iff

/-- A decimal with a sign is made the number that it rounds to. -/
theorem roundsTo_toDouble (negative : Bool) (d : Decimal) :
    Double.RoundsTo negative d.value (d.toDouble negative) where
  sign := rfl
  nearest := d.isNearest_nearest

end Decimal

end SyntaxTree
