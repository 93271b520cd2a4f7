import SyntaxTree.Proofs.Nearest
import SyntaxTree.Proofs.NumberLayout
import Mathlib.Data.Rat.Floor

/-!
The search for the shortest decimal. The decimals of one exponent are a grid, and coarser grids are parts of finer
ones. What lies between a decimal that rounds to a magnitude and the exact value rounds to it too, so a grid on which
neither neighbour of the exact value does has no other decimal that does. The search therefore ends on the coarsest
grid that has one, with the closest that this grid has; a shorter decimal would lie on a coarser grid. That of an
integer is an integer, and that of another number is not.
-/

namespace SyntaxTree

namespace Decimal

/-! ### Grids -/

/-- The values of the decimals of one exponent. -/
def OnGrid (exponent : ℤ) (value : ℚ) : Prop := ∃ digits : ℕ, value = digits * 10 ^ exponent

theorem onGrid_value (d : Decimal) : OnGrid d.exponent d.value := ⟨d.digits, rfl⟩

/-- A finer grid has all values of a coarser one. -/
theorem OnGrid.mono {fine coarse : ℤ} {value : ℚ} (h : OnGrid coarse value) (hle : fine ≤ coarse) :
    OnGrid fine value := by
  obtain ⟨digits, rfl⟩ := h
  obtain ⟨gap, rfl⟩ := Int.le.dest hle
  refine ⟨digits * 10 ^ gap, ?_⟩
  rw [zpow_add₀ (by norm_num), zpow_natCast]
  push_cast
  ring

/-! ### The neighbours of a decimal on a coarser grid -/

section

variable (exact : Decimal) (dropped : Nat)

/-- The decimal with `dropped` digits fewer that is not above `exact`. -/
def below : Decimal := ⟨exact.digits / 10 ^ dropped, exact.exponent + dropped⟩

/-- The decimal with `dropped` digits fewer that is next to the one below `exact`. -/
def above : Decimal := ⟨exact.digits / 10 ^ dropped + 1, exact.exponent + dropped⟩

/-- How far `exact` is above its neighbour, counted in its last digit. -/
def excess : Nat := exact.digits % 10 ^ dropped

theorem excess_lt : exact.excess dropped < 10 ^ dropped := Nat.mod_lt _ (Nat.pow_pos (by decide))

theorem value_below : (exact.below dropped).value = exact.value - exact.excess dropped * 10 ^ exact.exponent := by
  have hsplit : (exact.digits : ℚ) = 10 ^ dropped * (exact.digits / 10 ^ dropped : ℕ) + exact.excess dropped := by
    exact_mod_cast (Nat.div_add_mod exact.digits (10 ^ dropped)).symm
  rw [value, value, below, hsplit, zpow_add₀ (by norm_num), zpow_natCast]
  ring

theorem value_above : (exact.above dropped).value =
    exact.value + (10 ^ dropped - exact.excess dropped) * 10 ^ exact.exponent := by
  have hnext : (exact.above dropped).value = (exact.below dropped).value + 10 ^ dropped * 10 ^ exact.exponent := by
    rw [value, value, above, below, zpow_add₀ (by norm_num), zpow_natCast]
    push_cast
    ring
  rw [hnext, value_below]
  ring

theorem value_below_le : (exact.below dropped).value ≤ exact.value := by
  rw [value_below]
  have hpos : (0 : ℚ) ≤ exact.excess dropped * 10 ^ exact.exponent := by positivity
  linarith

theorem value_le_above : exact.value ≤ (exact.above dropped).value := by
  have hlt : (exact.excess dropped : ℚ) ≤ 10 ^ dropped := by exact_mod_cast (exact.excess_lt dropped).le
  have hpos : 0 ≤ (10 ^ dropped - exact.excess dropped : ℚ) * 10 ^ exact.exponent :=
    mul_nonneg (sub_nonneg.mpr hlt) (by positivity)
  rw [value_above]
  linarith

variable {exact dropped}

/-- No value of the grid lies between the neighbours. -/
theorem OnGrid.below_or_above {value : ℚ} (h : OnGrid (exact.exponent + dropped) value) :
    value ≤ (exact.below dropped).value ∨ (exact.above dropped).value ≤ value := by
  obtain ⟨digits, rfl⟩ := h
  have hpos : (0 : ℚ) ≤ 10 ^ (exact.exponent + dropped) := by positivity
  rcases Nat.lt_or_ge (exact.digits / 10 ^ dropped) digits with hlt | hge
  · right
    have hcast : ((exact.digits / 10 ^ dropped + 1 : ℕ) : ℚ) ≤ digits := by exact_mod_cast hlt
    exact mul_le_mul_of_nonneg_right hcast hpos
  · left
    have hcast : (digits : ℚ) ≤ (exact.digits / 10 ^ dropped : ℕ) := by exact_mod_cast hge
    exact mul_le_mul_of_nonneg_right hcast hpos

end

end Decimal

namespace Double

open Decimal

variable {tie : Tie} {magnitude dropped : Nat} {exact d : Decimal}

/-! ### One grid -/

/-- Cutting digits gives no decimal if neither neighbour rounds back, and otherwise one that does, the nearer one
if both do. -/
theorem cutAt_cases (tie : Tie) (magnitude : Nat) (exact : Decimal) (dropped : Nat) :
    cutAt tie magnitude exact dropped = none ∧
      (exact.below dropped).nearest ≠ magnitude ∧ (exact.above dropped).nearest ≠ magnitude ∨
    cutAt tie magnitude exact dropped = some (exact.below dropped) ∧ (exact.below dropped).nearest = magnitude ∧
      ((exact.above dropped).nearest = magnitude → 2 * exact.excess dropped ≤ 10 ^ dropped) ∨
    cutAt tie magnitude exact dropped = some (exact.above dropped) ∧ (exact.above dropped).nearest = magnitude ∧
      ((exact.below dropped).nearest = magnitude → 10 ^ dropped ≤ 2 * exact.excess dropped) := by
  have hcut : cutAt tie magnitude exact dropped =
      if (exact.below dropped).nearest = magnitude then
        if (exact.above dropped).nearest = magnitude then
          if 2 * exact.excess dropped < 10 ^ dropped then some (exact.below dropped)
          else if 10 ^ dropped < 2 * exact.excess dropped then some (exact.above dropped)
          else some (if tie.goesUp (exact.digits / 10 ^ dropped) then exact.above dropped else exact.below dropped)
        else some (exact.below dropped)
      else if (exact.above dropped).nearest = magnitude then some (exact.above dropped)
      else none := rfl
  rw [hcut]
  by_cases hlow : (exact.below dropped).nearest = magnitude
  · rw [if_pos hlow]
    by_cases hhigh : (exact.above dropped).nearest = magnitude
    · rw [if_pos hhigh]
      rcases Nat.lt_trichotomy (2 * exact.excess dropped) (10 ^ dropped) with hlt | heq | hgt
      · rw [if_pos hlt]
        exact .inr (.inl ⟨rfl, hlow, fun _ => hlt.le⟩)
      · rw [if_neg (by omega), if_neg (by omega)]
        cases tie.goesUp (exact.digits / 10 ^ dropped) with
        | false => exact .inr (.inl ⟨rfl, hlow, fun _ => heq.le⟩)
        | true => exact .inr (.inr ⟨rfl, hhigh, fun _ => heq.ge⟩)
      · rw [if_neg (by omega), if_pos hgt]
        exact .inr (.inr ⟨rfl, hhigh, fun _ => hgt.le⟩)
    · rw [if_neg hhigh]
      exact .inr (.inl ⟨rfl, hlow, fun h => absurd h hhigh⟩)
  · rw [if_neg hlow]
    by_cases hhigh : (exact.above dropped).nearest = magnitude
    · rw [if_pos hhigh]
      exact .inr (.inr ⟨rfl, hhigh, fun h => absurd h hlow⟩)
    · rw [if_neg hhigh]
      exact .inl ⟨rfl, hlow, hhigh⟩

section

variable (hexact : exact.value = absolute magnitude)

include hexact

/-- What rounds to a magnitude has all values up to the exact one round to it. -/
theorem isNearest_toward {value middle : ℚ} (h : IsNearest value magnitude)
    (hmiddle : value ≤ middle ∧ middle ≤ exact.value ∨ exact.value ≤ middle ∧ middle ≤ value) :
    IsNearest middle magnitude :=
  h.between (Set.mem_uIcc.mpr (hexact ▸ hmiddle))

/-- Where neither neighbour rounds back, nothing on the grid does. -/
theorem not_isNearest_of_cutAt (h : cutAt tie magnitude exact dropped = none) {value : ℚ}
    (hgrid : OnGrid (exact.exponent + dropped) value) : ¬IsNearest value magnitude := by
  intro hvalue
  obtain ⟨-, hlow, hhigh⟩ | ⟨hcut, -⟩ | ⟨hcut, -⟩ := cutAt_cases tie magnitude exact dropped
  · rw [Ne, nearest_eq_iff] at hlow hhigh
    rcases hgrid.below_or_above with hbelow | habove
    · exact hlow (isNearest_toward hexact hvalue (.inl ⟨hbelow, exact.value_below_le dropped⟩))
    · exact hhigh (isNearest_toward hexact hvalue (.inr ⟨exact.value_le_above dropped, habove⟩))
  · cases h.symm.trans hcut
  · cases h.symm.trans hcut

/-- A decimal that is cut off is as close to the exact value as any other on its grid that rounds back. -/
theorem closest_of_cutAt (h : cutAt tie magnitude exact dropped = some d) :
    d.exponent = exact.exponent + dropped ∧ ∀ value, OnGrid (exact.exponent + dropped) value →
      IsNearest value magnitude → |d.value - exact.value| ≤ |value - exact.value| := by
  have hbelow := exact.value_below_le dropped
  have habove := exact.value_le_above dropped
  have hstep : (0 : ℚ) < 10 ^ exact.exponent := by positivity
  obtain ⟨hcut, -⟩ | ⟨hcut, hlow, hnearer⟩ | ⟨hcut, hhigh, hnearer⟩ := cutAt_cases tie magnitude exact dropped
  · cases h.symm.trans hcut
  · cases h.symm.trans hcut
    refine ⟨rfl, fun value hgrid hvalue => ?_⟩
    rcases hgrid.below_or_above with hle | hge
    · rw [abs_of_nonpos (by linarith), abs_of_nonpos (by linarith)]
      linarith
    · have hhigh := isNearest_toward hexact hvalue (.inr ⟨habove, hge⟩)
      have hhalf : (2 * exact.excess dropped : ℚ) ≤ 10 ^ dropped := by
        exact_mod_cast hnearer (nearest_eq_iff.mpr hhigh)
      rw [abs_of_nonpos (by linarith), abs_of_nonneg (by linarith)]
      have hbelowValue := exact.value_below dropped
      have haboveValue := exact.value_above dropped
      nlinarith
  · cases h.symm.trans hcut
    refine ⟨rfl, fun value hgrid hvalue => ?_⟩
    rcases hgrid.below_or_above with hle | hge
    · have hlow := isNearest_toward hexact hvalue (.inl ⟨hle, hbelow⟩)
      have hhalf : (10 ^ dropped : ℚ) ≤ 2 * exact.excess dropped := by
        exact_mod_cast hnearer (nearest_eq_iff.mpr hlow)
      rw [abs_of_nonneg (by linarith), abs_of_nonpos (by linarith)]
      have hbelowValue := exact.value_below dropped
      have haboveValue := exact.value_above dropped
      nlinarith
    · rw [abs_of_nonneg (by linarith), abs_of_nonneg (by linarith)]
      linarith

end

/-! ### All grids -/

/-- A decimal that rounds to a magnitude, on the coarsest grid that has one, and the closest there; the grids are
those with up to `dropped` digits fewer than the exact value. -/
structure IsCoarsest (magnitude : Nat) (exact : Decimal) (dropped : Nat) (d : Decimal) : Prop where
  fine : exact.exponent ≤ d.exponent
  coarse : d.exponent ≤ exact.exponent + dropped
  rounds : IsNearest d.value magnitude
  closest : ∀ value, OnGrid d.exponent value → IsNearest value magnitude →
    |d.value - exact.value| ≤ |value - exact.value|
  coarsest : ∀ exponent value, d.exponent < exponent → exponent ≤ exact.exponent + dropped →
    OnGrid exponent value → ¬IsNearest value magnitude

/-- The search ends on the coarsest grid that has a decimal that rounds back. -/
theorem isCoarsest_search (tie : Tie) (hexact : exact.value = absolute magnitude)
    (hrounds : IsNearest exact.value magnitude) (dropped : Nat) :
    IsCoarsest magnitude exact dropped (search tie magnitude exact dropped) := by
  induction dropped with
  | zero =>
    exact { fine := le_rfl
            coarse := by simp [search]
            rounds := hrounds
            closest := fun value _ _ => by simp [search]
            coarsest := fun exponent value hlt hle => by simp only [search] at hlt; omega }
  | succ dropped ih =>
    rw [search]
    split
    · rename_i d hcut
      obtain ⟨hexponent, hclosest⟩ := closest_of_cutAt hexact hcut
      exact { fine := by omega
              coarse := hexponent.le
              rounds := nearest_eq_iff.mp (nearest_of_cutAt hcut)
              closest := fun value hgrid => hclosest value (hexponent ▸ hgrid)
              coarsest := fun exponent value hlt hle => by omega }
    · rename_i hcut
      refine { ih with coarse := by have := ih.coarse; omega, coarsest := fun exponent value hlt hle hgrid => ?_ }
      rcases Int.lt_or_eq_of_le hle with hfiner | rfl
      · exact ih.coarsest exponent value hlt (by omega) hgrid
      · exact not_isNearest_of_cutAt hexact hcut hgrid

namespace IsCoarsest

/-- On its grid the closest decimal does not reach beyond a power of ten above the exact value. -/
theorem digits_le (h : IsCoarsest magnitude exact dropped d) (hexact : exact.value = absolute magnitude) {count : Nat}
    (hcount : exact.value < 10 ^ (d.exponent + count)) : d.digits ≤ 10 ^ count := by
  by_contra hlarge
  have hpos : (0 : ℚ) < 10 ^ d.exponent := by positivity
  have hpower : (10 : ℚ) ^ (d.exponent + count) = (10 ^ count : ℕ) * 10 ^ d.exponent := by
    rw [zpow_add₀ (by norm_num), zpow_natCast, mul_comm]
    push_cast
    rfl
  have hgrid : OnGrid d.exponent (10 ^ (d.exponent + count)) := ⟨10 ^ count, hpower⟩
  have hbeyond : (10 : ℚ) ^ (d.exponent + count) < d.value := by
    rw [hpower, value]
    have hcast : ((10 ^ count : ℕ) : ℚ) < d.digits := by exact_mod_cast Nat.not_le.mp hlarge
    exact mul_lt_mul_of_pos_right hcast hpos
  have hclosest := h.closest _ hgrid (isNearest_toward hexact h.rounds (.inr ⟨hcount.le, hbeyond.le⟩))
  rw [abs_of_pos (by linarith), abs_of_pos (by linarith)] at hclosest
  linarith

end IsCoarsest

/-- A decimal of few digits that rounds back lies on a coarse grid, or a power of ten there is closer. -/
theorem exists_onGrid (hexact : exact.value = absolute magnitude) {lead : ℤ} (hlead : 10 ^ lead ≤ exact.value)
    (hd : IsNearest d.value magnitude) {count : Nat} (hpos : 0 < count) (hcount : d.digits < 10 ^ count) :
    ∃ value, OnGrid (lead + 1 - count) value ∧ IsNearest value magnitude ∧
      |value - exact.value| ≤ |d.value - exact.value| := by
  rcases le_or_gt ((10 : ℚ) ^ lead) d.value with hle | hlt
  · have hreach : (10 : ℚ) ^ lead < 10 ^ (count + d.exponent) := by
      have hcast : (d.digits : ℚ) < 10 ^ count := by exact_mod_cast hcount
      rw [zpow_add₀ (by norm_num), zpow_natCast]
      exact hle.trans_lt (mul_lt_mul_of_pos_right hcast (by positivity))
    have hexponent := (zpow_lt_zpow_iff_right₀ (by norm_num)).mp hreach
    exact ⟨d.value, d.onGrid_value.mono (by omega), hd, le_rfl⟩
  · have hgrid : OnGrid lead ((10 : ℚ) ^ lead) := ⟨1, by norm_num⟩
    refine ⟨10 ^ lead, hgrid.mono (by omega), isNearest_toward hexact hd (.inl ⟨hlt.le, hlead⟩), ?_⟩
    rw [abs_of_nonpos (by linarith), abs_of_nonpos (by linarith)]
    linarith

end Double

namespace Decimal

/-! ### Trailing zeros -/

/-- Enough fuel takes all zeros away. -/
theorem digits_trim_mod {fuel : Nat} {d : Decimal} (hne : d.digits ≠ 0) (hle : d.digits ≤ 10 ^ fuel) :
    (trim fuel d).digits % 10 ≠ 0 := by
  induction fuel generalizing d with
  | zero =>
    rw [trim]
    rw [pow_zero] at hle
    omega
  | succ fuel ih =>
    rw [trim]
    split
    · rename_i hzero
      rw [pow_succ] at hle
      apply ih
      · dsimp only
        omega
      · dsimp only
        omega
    · assumption

theorem exponent_le_trim (fuel : Nat) (d : Decimal) : d.exponent ≤ (trim fuel d).exponent := by
  induction fuel generalizing d with
  | zero => exact le_rfl
  | succ fuel ih =>
    rw [trim]
    split
    · exact (Int.le_add_one le_rfl).trans (ih _)
    · exact le_rfl

end Decimal

namespace Double

open Decimal

/-! ### The shortest decimal -/

/-- What does not round to zero has a digit. -/
theorem digits_ne_zero_of_nearest {d : Decimal} {magnitude : Nat} (hd : d.nearest = magnitude)
    (hzero : magnitude ≠ 0) : d.digits ≠ 0 := by
  intro hdigits
  rw [Decimal.nearest, if_pos hdigits] at hd
  exact hzero hd.symm

section

variable (tie : Tie) {magnitude : Nat}

/-- The decimal that the search ends on, whose trailing zeros are still there. -/
def coarsest (magnitude : Nat) : Decimal :=
  search tie magnitude (exactDecimal magnitude) ((exactDecimal magnitude).digitChars.length - 1)

/-- How many digits of the exact value are left at the exponent on which the search ends. -/
def keptDigits (magnitude : Nat) : Nat :=
  ((exactDecimal magnitude).leadingExponent + 1 - (coarsest tie magnitude).exponent).toNat

theorem value_exactDecimal_eq (magnitude : Nat) : (exactDecimal magnitude).value = absolute magnitude := by
  rw [absolute, eq_div_iff (by positivity), value_exactDecimal]

theorem shortest_eq_trim (hzero : magnitude ≠ 0) :
    shortest tie magnitude = (coarsest tie magnitude).trim (exactDecimal magnitude).digitChars.length := if_neg hzero

theorem value_shortest (hzero : magnitude ≠ 0) : (shortest tie magnitude).value = (coarsest tie magnitude).value := by
  rw [shortest_eq_trim tie hzero, value_trim]

variable (hfinite : magnitude < infiniteMagnitude)

include hfinite

theorem isCoarsest_coarsest : IsCoarsest magnitude (exactDecimal magnitude)
    ((exactDecimal magnitude).digitChars.length - 1) (coarsest tie magnitude) :=
  isCoarsest_search tie (value_exactDecimal_eq magnitude) (nearest_eq_iff.mp (nearest_exactDecimal hfinite)) _

theorem keptDigits_eq : 0 < keptDigits tie magnitude ∧
    (coarsest tie magnitude).exponent + keptDigits tie magnitude = (exactDecimal magnitude).leadingExponent + 1 ∧
    keptDigits tie magnitude ≤ (exactDecimal magnitude).digitChars.length := by
  have hcoarsest := isCoarsest_coarsest tie hfinite
  have hfine := hcoarsest.fine
  have hcoarse := hcoarsest.coarse
  have hpos := length_digitChars_pos (exactDecimal magnitude)
  rw [keptDigits, leadingExponent]
  omega

theorem digits_coarsest_le : (coarsest tie magnitude).digits ≤ 10 ^ keptDigits tie magnitude := by
  apply (isCoarsest_coarsest tie hfinite).digits_le (value_exactDecimal_eq magnitude)
  rw [(keptDigits_eq tie hfinite).2.1]
  exact value_lt_ten_pow _

variable (hzero : magnitude ≠ 0)

include hzero

theorem digits_shortest_mod : (shortest tie magnitude).digits % 10 ≠ 0 := by
  rw [shortest_eq_trim tie hzero]
  apply digits_trim_mod
  · exact digits_ne_zero_of_nearest (nearest_eq_iff.mpr (isCoarsest_coarsest tie hfinite).rounds) hzero
  · calc (coarsest tie magnitude).digits ≤ 10 ^ keptDigits tie magnitude := digits_coarsest_le tie hfinite
      _ ≤ 10 ^ (exactDecimal magnitude).digitChars.length :=
        Nat.pow_le_pow_right (by decide) (keptDigits_eq tie hfinite).2.2

theorem digits_shortest_lt : (shortest tie magnitude).digits < 10 ^ keptDigits tie magnitude := by
  apply lt_of_le_of_ne
  · rw [shortest_eq_trim tie hzero]
    exact (digits_trim_le _ _).trans (digits_coarsest_le tie hfinite)
  · intro heq
    obtain ⟨more, hmore⟩ := Nat.exists_eq_add_of_lt (keptDigits_eq tie hfinite).1
    apply digits_shortest_mod tie hfinite hzero
    rw [heq, hmore, pow_succ, Nat.mul_mod_left]

/-- No decimal that rounds to a magnitude has fewer digits than the shortest, and none of as many is closer. -/
theorem shortest_optimal {d : Decimal} (hd : IsNearest d.value magnitude) {count : Nat}
    (hcount : d.digits < 10 ^ count) : (shortest tie magnitude).digits < 10 ^ count ∧
      (10 ^ (count - 1) ≤ (shortest tie magnitude).digits →
        |(shortest tie magnitude).value - absolute magnitude| ≤ |d.value - absolute magnitude|) := by
  have hcoarsest := isCoarsest_coarsest tie hfinite
  have hexact := value_exactDecimal_eq magnitude
  obtain ⟨hkept, hexponent, hlength⟩ := keptDigits_eq tie hfinite
  have hpos : 0 < count := by
    apply Nat.pos_of_ne_zero
    rintro rfl
    have hdigits := digits_ne_zero_of_nearest (nearest_eq_iff.mpr hd) hzero
    omega
  have hexactDigits : (exactDecimal magnitude).digits ≠ 0 :=
    digits_ne_zero_of_nearest (nearest_exactDecimal hfinite) hzero
  obtain ⟨value, hgrid, hvalue, hcloser⟩ :=
    exists_onGrid hexact (ten_pow_leadingExponent_le hexactDigits) hd hpos hcount
  constructor
  · by_contra hlarge
    have hfewer : 10 ^ count < 10 ^ keptDigits tie magnitude :=
      (Nat.not_lt.mp hlarge).trans_lt (digits_shortest_lt tie hfinite hzero)
    have hlt := (Nat.pow_lt_pow_iff_right (by decide)).mp hfewer
    apply hcoarsest.coarsest _ value _ _ hgrid hvalue
    · omega
    · rw [leadingExponent]
      omega
  · intro hmany
    have hfewer : 10 ^ (count - 1) < 10 ^ keptDigits tie magnitude :=
      hmany.trans_lt (digits_shortest_lt tie hfinite hzero)
    have hlt := (Nat.pow_lt_pow_iff_right (by decide)).mp hfewer
    rw [value_shortest tie hzero, ← hexact]
    exact (hcoarsest.closest value (hgrid.mono (by omega)) hvalue).trans hcloser

end

/-! ### Integers -/

section

variable (tie : Tie) {magnitude : Nat} (hfinite : magnitude < infiniteMagnitude)

include hfinite

theorem exponent_shortest_nonneg {count : ℕ} (hinteger : absolute magnitude = count) :
    0 ≤ (shortest tie magnitude).exponent := by
  by_cases hzero : magnitude = 0
  · rw [shortest, if_pos hzero]
  · by_contra hneg
    have hexact := value_exactDecimal_eq magnitude
    have htrim := exponent_le_trim (exactDecimal magnitude).digitChars.length (coarsest tie magnitude)
    rw [← shortest_eq_trim tie hzero] at htrim
    have hpos : 0 < absolute magnitude :=
      (absolute_nonneg 0).trans_lt (absolute_strictMono (Nat.pos_of_ne_zero hzero))
    have hlead : (10 : ℚ) ^ (0 : ℤ) < 10 ^ ((exactDecimal magnitude).leadingExponent + 1) := by
      have hone : (1 : ℚ) ≤ absolute magnitude := by
        rw [hinteger] at hpos ⊢
        exact_mod_cast hpos
      calc (10 : ℚ) ^ (0 : ℤ) = 1 := zpow_zero _
        _ ≤ (exactDecimal magnitude).value := by rwa [hexact]
        _ < 10 ^ ((exactDecimal magnitude).leadingExponent + 1) := value_lt_ten_pow _
    have hreach := (zpow_lt_zpow_iff_right₀ (by norm_num)).mp hlead
    have hpositive := length_digitChars_pos (exactDecimal magnitude)
    rw [leadingExponent] at hreach
    apply (isCoarsest_coarsest tie hfinite).coarsest 0 (absolute magnitude)
    · omega
    · omega
    · exact ⟨count, by rw [hinteger, zpow_zero, mul_one]⟩
    · rw [← hexact, ← nearest_eq_iff]
      exact nearest_exactDecimal hfinite

theorem exists_natCast_of_exponent (hexponent : 0 ≤ (shortest tie magnitude).exponent) :
    ∃ count : ℕ, absolute magnitude = count := by
  by_contra hfraction
  have hrounds := nearest_eq_iff.mp (nearest_shortest tie hfinite)
  obtain ⟨count, hcount⟩ := (shortest tie magnitude).onGrid_value.mono hexponent
  rw [zpow_zero, mul_one] at hcount
  rw [hcount] at hrounds
  have hbound := (absolute_integer_or_lt magnitude).resolve_left hfraction
  have hnonneg := absolute_nonneg magnitude
  have hfloor : (⌊absolute magnitude⌋₊ : ℚ) < absolute magnitude :=
    lt_of_le_of_ne (Nat.floor_le hnonneg) fun heq => hfraction ⟨_, heq.symm⟩
  have hceil : absolute magnitude < (⌊absolute magnitude⌋₊ + 1 : ℕ) := by
    push_cast
    exact Nat.lt_floor_add_one _
  have hlast : ⌊absolute magnitude⌋₊ < 2 ^ 53 := by exact_mod_cast hfloor.trans hbound
  -- The integers around the number are numbers too, and one of them is closer to the decimal.
  rcases Nat.lt_or_ge ⌊absolute magnitude⌋₊ count with hlt | hge
  · obtain ⟨other, hother, heq⟩ := exists_absolute_eq_natCast (Nat.succ_le_of_lt hlast)
    have hclosest := hrounds.closest other hother
    have hcast : ((⌊absolute magnitude⌋₊ + 1 : ℕ) : ℚ) ≤ count := by exact_mod_cast hlt
    rw [heq, abs_of_nonneg (by linarith), abs_of_nonneg (by linarith)] at hclosest
    linarith
  · obtain ⟨other, hother, heq⟩ := exists_absolute_eq_natCast hlast.le
    have hclosest := hrounds.closest other hother
    have hcast : (count : ℚ) ≤ ⌊absolute magnitude⌋₊ := by exact_mod_cast hge
    rw [heq, abs_of_nonpos (by linarith), abs_of_nonpos (by linarith)] at hclosest
    linarith

/-- The shortest decimal is an integer exactly if the number is one. -/
theorem exponent_shortest_nonneg_iff :
    0 ≤ (shortest tie magnitude).exponent ↔ ∃ count : ℕ, absolute magnitude = count :=
  ⟨exists_natCast_of_exponent tie hfinite, fun ⟨_, hinteger⟩ => exponent_shortest_nonneg tie hfinite hinteger⟩

end

end Double

end SyntaxTree
