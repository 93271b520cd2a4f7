import SyntaxTree.Proofs.NumberValue

/-!
The JSON text of a finite number is a spelled number that means it. There are three layouts: an integer that
ends in `.0`, a number with digits on both sides of its point, and one digit before the point with an exponent.
-/

namespace SyntaxTree

open Json

namespace Decimal

/-- What the layouts need to know about a shortest decimal. -/
structure IsShort (d : Decimal) : Prop where
  digits_le : d.digits ≤ 10 ^ 767
  nonzero : d.digits ≠ 0 ∨ d.exponent = 0

theorem IsShort.digits_lt {d : Decimal} (hd : d.IsShort) : d.digits < 10 ^ NumberText.digitLimit := by
  have hlimit : 767 < NumberText.digitLimit := by decide
  calc d.digits ≤ 10 ^ 767 := hd.digits_le
    _ < 10 ^ NumberText.digitLimit := pow_lt_pow_right₀ (by decide) hlimit

section

variable (negative : Bool) (d : Decimal)

theorem digits_digitChars : Nat.ofDigitChars 10 d.digitChars 0 = d.digits := Nat.ofDigitChars_ten_toDigits

theorem digits_lt_pow : d.digits < 10 ^ d.digitChars.length := by
  have hlt := ofDigitChars_lt (isDigit_toDigits d.digits).2
  rwa [Nat.ofDigitChars_ten_toDigits] at hlt

theorem length_digitChars_pos : 0 < d.digitChars.length := Nat.length_toDigits_pos

variable {d} in
theorem pow_le_digits (h : d.digits ≠ 0) : 10 ^ (d.digitChars.length - 1) ≤ d.digits := by
  cases hchars : d.digitChars with
  | nil => exact absurd hchars Nat.toDigits_ne_nil
  | cons c cs =>
    have hzero : c ≠ '0' := by
      rintro rfl
      exact toDigits_ne_zero_cons h cs hchars
    have hdigit : c.isDigit = true := (isDigit_toDigits d.digits).2 c (by
      rw [show Nat.toDigits 10 d.digits = c :: cs from hchars]
      exact List.mem_cons_self)
    rw [← digits_digitChars d, hchars]
    exact pow_le_ofDigitChars hdigit hzero

/-! ### The first digit -/

variable {d} in
/-- A decimal is at least the power of ten of its first digit. -/
theorem ten_pow_leadingExponent_le (h : d.digits ≠ 0) : (10 : ℚ) ^ d.leadingExponent ≤ d.value := by
  have hpos := length_digitChars_pos d
  have hcount : ((d.digitChars.length - 1 : ℕ) : ℤ) + d.exponent = d.leadingExponent := by
    rw [leadingExponent]
    omega
  have hcast : (10 : ℚ) ^ (d.digitChars.length - 1) ≤ d.digits := by exact_mod_cast pow_le_digits h
  rw [← hcount, zpow_add₀ (by norm_num), zpow_natCast, value]
  exact mul_le_mul_of_nonneg_right hcast (by positivity)

/-- The value is below the power of ten that as many digits at this exponent reach. -/
theorem value_lt {d : Decimal} {count : Nat} {power : ℤ} (hdigits : d.digits < 10 ^ count)
    (hpower : count + d.exponent ≤ power) : d.value < (10 : ℚ) ^ power := by
  have hcast : (d.digits : ℚ) < 10 ^ count := by exact_mod_cast hdigits
  have hpos : (0 : ℚ) < 10 ^ d.exponent := by positivity
  calc d.value < 10 ^ count * (10 : ℚ) ^ d.exponent := mul_lt_mul_of_pos_right hcast hpos
    _ = (10 : ℚ) ^ (count + d.exponent) := by rw [zpow_add₀ (by norm_num), zpow_natCast]
    _ ≤ (10 : ℚ) ^ power := zpow_le_zpow_right₀ (by norm_num) hpower

theorem value_lt_ten_pow : d.value < (10 : ℚ) ^ (d.leadingExponent + 1) := by
  apply value_lt (digits_lt_pow d)
  rw [leadingExponent]
  omega

/-! ### Integers -/

/-- The parts of an integer that ends in `.0`. -/
def integerParts : NumberText :=
  { negative, whole := d.digitChars ++ List.replicate d.exponent.toNat '0', fraction := ['0'] }

theorem isDigit_zeros {n : Nat} {c : Char} (h : c ∈ List.replicate n '0') : c.isDigit = true := by
  rw [List.eq_of_mem_replicate h]
  rfl

theorem integerParts_wellFormed (hd : d.IsShort) : (integerParts negative d).WellFormed where
  whole := by
    have hdigits := isDigit_toDigits d.digits
    refine ⟨List.append_ne_nil_of_left_ne_nil hdigits.1 _, ?_⟩
    intro c hc
    rcases List.mem_append.mp hc with h | h
    · exact hdigits.2 c h
    · exact isDigit_zeros h
  noLeadingZero := by
    intro c cs hwhole
    rcases hd.nonzero with hne | hexponent
    · cases hdigits : d.digitChars with
      | nil => exact Nat.toDigits_ne_nil hdigits
      | cons e es =>
        simp only [integerParts, hdigits, List.cons_append, List.cons.injEq] at hwhole
        exact toDigits_ne_zero_cons hne es (by rw [← hwhole.1]; exact hdigits)
    · simp only [integerParts, hexponent, Int.toNat_zero, List.replicate_zero, List.append_nil] at hwhole
      by_cases hzero : d.digits = 0
      · rw [digitChars, hzero] at hwhole
        cases hwhole
      · exact toDigits_ne_zero_cons hzero _ hwhole
  fraction := by simp [integerParts]
  exponent := by simp [integerParts]

theorem integerParts_number : Nat.ofDigitChars 10
    ((integerParts negative d).whole ++ (integerParts negative d).fraction) 0 =
      d.digits * 10 ^ (d.exponent.toNat + 1) := by
  rw [integerParts, Nat.ofDigitChars_append, Nat.ofDigitChars_append, digits_digitChars,
    Nat.ofDigitChars_replicate_zero, Nat.ofDigitChars_cons, Nat.ofDigitChars_nil, Nat.pow_succ]
  simp only [Char.reduceToNat, Nat.sub_self, Nat.add_zero]
  ring

theorem exact_integerParts (hexponent : 0 ≤ d.exponent) : (integerParts negative d).exact = d.value := by
  have hpower : (integerParts negative d).power - ((integerParts negative d).fraction.length : ℤ) = -1 := rfl
  rw [NumberText.exact, integerParts_number, hpower, value]
  obtain ⟨e, he⟩ := Int.eq_ofNat_of_zero_le hexponent
  rw [he]
  push_cast
  rw [Int.toNat_natCast, pow_succ, zpow_natCast]
  norm_num
  ring

theorem value_integerParts (hd : d.IsShort) (hexponent : 0 ≤ d.exponent) (hlead : d.leadingExponent ≤ 15) :
    (integerParts negative d).decimal.value = d.value := by
  have hall := (integerParts_wellFormed negative d hd).isDigit
  have hsmall : d.digits * 10 ^ (d.exponent.toNat + 1) < 10 ^ NumberText.digitLimit := by
    have hpos := length_digitChars_pos d
    have hlength : d.digitChars.length + (d.exponent.toNat + 1) ≤ 17 := by
      simp only [leadingExponent] at hlead
      omega
    calc d.digits * 10 ^ (d.exponent.toNat + 1)
        < 10 ^ d.digitChars.length * 10 ^ (d.exponent.toNat + 1) :=
          Nat.mul_lt_mul_of_pos_right (digits_lt_pow d) (Nat.pow_pos (by decide))
      _ = 10 ^ (d.digitChars.length + (d.exponent.toNat + 1)) := (Nat.pow_add _ _ _).symm
      _ ≤ 10 ^ 17 := Nat.pow_le_pow_right (by decide) hlength
      _ ≤ 10 ^ NumberText.digitLimit := Nat.pow_le_pow_right (by decide) (by decide)
  rw [NumberText.value_decimal hall (by rw [integerParts_number]; exact hsmall),
    exact_integerParts negative d hexponent]

/-! ### Digits on both sides of the point -/

def placeCount : Nat := (-d.exponent).toNat

/-- The digits with zeros in front, one of them before the point. -/
def padded : List Char := List.replicate (d.placeCount + 1 - d.digitChars.length) '0' ++ d.digitChars

/-- The parts of a number with digits on both sides of its point. -/
def pointParts : NumberText :=
  { negative
    whole := d.padded.take (d.padded.length - d.placeCount)
    fraction := d.padded.drop (d.padded.length - d.placeCount) }

theorem isDigit_padded {c : Char} (h : c ∈ d.padded) : c.isDigit = true := by
  rcases List.mem_append.mp h with h | h
  · exact isDigit_zeros h
  · exact (isDigit_toDigits d.digits).2 c h

theorem length_padded : d.padded.length = max (d.placeCount + 1) d.digitChars.length := by
  rw [padded, List.length_append, List.length_replicate]
  omega

theorem length_fraction_pointParts : (pointParts negative d).fraction.length = d.placeCount := by
  have hlength := length_padded d
  simp only [pointParts, List.length_drop]
  omega

theorem fraction_pointParts_ne_nil (hexponent : ¬0 ≤ d.exponent) : (pointParts negative d).fraction ≠ [] := by
  have hlength := length_fraction_pointParts negative d
  intro hnil
  rw [hnil, List.length_nil, placeCount] at hlength
  omega

theorem positional_eq_pointParts (hexponent : ¬0 ≤ d.exponent) :
    d.positional = (pointParts negative d).whole ++ '.' :: (pointParts negative d).fraction := by
  rw [positional, if_neg hexponent]
  rfl

theorem pointParts_wellFormed (hd : d.IsShort) (hexponent : d.exponent < 0) :
    (pointParts negative d).WellFormed where
  whole := by
    have hlength := length_padded d
    constructor
    · intro hnil
      have hzero := congrArg List.length hnil
      simp only [pointParts, List.length_take, List.length_nil] at hzero
      omega
    · intro c hc
      exact isDigit_padded d (List.mem_of_mem_take hc)
  noLeadingZero := by
    intro c cs hwhole
    have hlength := length_padded d
    have htake := congrArg List.length hwhole
    simp only [pointParts, List.length_take, List.length_cons] at htake
    -- Zeros are put in front only up to a single digit before the point.
    have hpad : d.padded = d.digitChars := by
      rw [padded, show d.placeCount + 1 - d.digitChars.length = 0 by omega]
      rfl
    have hne : d.digits ≠ 0 := by
      rcases hd.nonzero with h | h
      · exact h
      · omega
    have hsplit := List.take_append_drop (d.padded.length - d.placeCount) d.padded
    rw [show d.padded.take (d.padded.length - d.placeCount) = '0' :: c :: cs from hwhole, hpad] at hsplit
    exact toDigits_ne_zero_cons hne _ hsplit.symm
  fraction := fun c hc => isDigit_padded d (List.mem_of_mem_drop hc)
  exponent := by simp [pointParts]

/-- The digits on both sides of the point are those of the decimal, with zeros in front. -/
theorem pointParts_number : Nat.ofDigitChars 10
    ((pointParts negative d).whole ++ (pointParts negative d).fraction) 0 = d.digits := by
  have happend : (pointParts negative d).whole ++ (pointParts negative d).fraction = d.padded :=
    List.take_append_drop _ _
  rw [happend, padded, Nat.ofDigitChars_append, Nat.ofDigitChars_replicate_zero, Nat.mul_zero, digits_digitChars]

theorem exact_pointParts (hexponent : d.exponent < 0) : (pointParts negative d).exact = d.value := by
  have hpower : (pointParts negative d).power - ((pointParts negative d).fraction.length : ℤ) = d.exponent := by
    rw [length_fraction_pointParts]
    simp only [NumberText.power, pointParts, placeCount]
    omega
  rw [NumberText.exact, pointParts_number, hpower, value]

theorem value_pointParts (hd : d.IsShort) (hexponent : d.exponent < 0) :
    (pointParts negative d).decimal.value = d.value := by
  have hall : ∀ c ∈ (pointParts negative d).whole ++ (pointParts negative d).fraction, c.isDigit = true := by
    intro c hc
    rcases List.mem_append.mp hc with h | h
    · exact isDigit_padded d (List.mem_of_mem_take h)
    · exact isDigit_padded d (List.mem_of_mem_drop h)
  rw [NumberText.value_decimal hall (by rw [pointParts_number]; exact hd.digits_lt),
    exact_pointParts negative d hexponent]

/-! ### An exponent -/

/-- The parts of a number with one digit before the point and an exponent. -/
def scientificParts : NumberText :=
  { negative
    whole := d.digitChars.take 1
    fraction := d.digitChars.drop 1
    exponent := some (decide (d.leadingExponent < 0), Nat.toDigits 10 d.leadingExponent.natAbs) }

theorem scientificParts_wellFormed : (scientificParts negative d).WellFormed where
  whole := by
    have hpos := length_digitChars_pos d
    constructor
    · intro hnil
      have hzero := congrArg List.length hnil
      simp only [scientificParts, List.length_take, List.length_nil] at hzero
      omega
    · intro c hc
      exact (isDigit_toDigits d.digits).2 c (List.mem_of_mem_take hc)
  noLeadingZero := by
    intro c cs hwhole
    have hlength := congrArg List.length hwhole
    simp only [scientificParts, List.length_take, List.length_cons] at hlength
    omega
  fraction := fun c hc => (isDigit_toDigits d.digits).2 c (List.mem_of_mem_drop hc)
  exponent := by
    rintro e he
    cases he
    exact isDigit_toDigits _

theorem power_scientificParts : (scientificParts negative d).power = d.leadingExponent := by
  by_cases h : d.leadingExponent < 0
  · simp only [NumberText.power, scientificParts, h, decide_true, Nat.ofDigitChars_ten_toDigits]
    omega
  · simp only [NumberText.power, scientificParts, h, decide_false, Nat.ofDigitChars_ten_toDigits]
    omega

theorem scientificParts_append :
    (scientificParts negative d).whole ++ (scientificParts negative d).fraction = d.digitChars :=
  List.take_append_drop _ _

theorem exact_scientificParts : (scientificParts negative d).exact = d.value := by
  have hpower : (scientificParts negative d).power - ((scientificParts negative d).fraction.length : ℤ) =
      d.exponent := by
    have hpos := length_digitChars_pos d
    rw [power_scientificParts]
    simp only [scientificParts, leadingExponent, List.length_drop]
    omega
  rw [NumberText.exact, scientificParts_append, digits_digitChars, hpower, value]

theorem value_scientificParts (hd : d.IsShort) : (scientificParts negative d).decimal.value = d.value := by
  have hall : ∀ c ∈ (scientificParts negative d).whole ++ (scientificParts negative d).fraction,
      c.isDigit = true := by
    rw [scientificParts_append]
    exact (isDigit_toDigits d.digits).2
  rw [NumberText.value_decimal hall (by rw [scientificParts_append, digits_digitChars]; exact hd.digits_lt),
    exact_scientificParts]

/-! ### All layouts -/

/-- The parts of the JSON layout of a decimal. -/
def compactParts : NumberText :=
  if -5 ≤ d.leadingExponent ∧ d.leadingExponent ≤ 15 then
    if 0 ≤ d.exponent then integerParts negative d else pointParts negative d
  else scientificParts negative d

variable {d}

theorem compactParts_wellFormed (hd : d.IsShort) : (compactParts negative d).WellFormed := by
  unfold compactParts
  split
  · split
    · exact integerParts_wellFormed negative d hd
    · exact pointParts_wellFormed negative d hd (by omega)
  · exact scientificParts_wellFormed negative d

theorem value_compactParts (hd : d.IsShort) : (compactParts negative d).decimal.value = d.value := by
  unfold compactParts
  split
  · rename_i hlead
    split
    · rename_i hexponent
      exact value_integerParts negative d hd hexponent hlead.2
    · exact value_pointParts negative d hd (by omega)
  · exact value_scientificParts negative d hd

theorem negative_compactParts : (compactParts negative d).negative = negative := by
  unfold compactParts
  split
  · split <;> rfl
  · rfl

/-- No layout is that of an integer. -/
theorem integer?_compactParts : (compactParts negative d).integer? = none := by
  unfold compactParts
  split
  · split
    · rfl
    · rename_i hexponent
      rw [NumberText.integer?, if_neg fun h => fraction_pointParts_ne_nil negative d hexponent h.1]
  · rw [NumberText.integer?, if_neg (by simp [scientificParts])]

theorem write_compactParts (n : NumberSpelling) (hparts : n.parts = compactParts negative d) (hmark : n.mark = 'e')
    (hplus : n.plus = true) (rest : List Char) : n.writeUnsigned rest = d.compact ++ rest := by
  rw [NumberSpelling.writeUnsigned, NumberSpelling.writeExponent, hmark, hplus, hparts, compactParts, compact]
  split
  · split
    · rename_i hexponent
      rw [positional, if_pos hexponent]
      simp [integerParts, NumberSpelling.writeFraction]
    · rename_i hexponent
      rw [NumberSpelling.writeFraction, if_neg (fraction_pointParts_ne_nil negative d hexponent),
        positional_eq_pointParts negative d hexponent]
      simp [pointParts]
  · unfold scientific
    cases hdigits : d.digitChars with
    | nil => exact absurd hdigits Nat.toDigits_ne_nil
    | cons c cs =>
      cases cs with
      | nil =>
        by_cases hlead : d.leadingExponent < 0
        · simp [scientificParts, NumberSpelling.writeFraction, hdigits, hlead, not_le.mpr hlead]
        · simp [scientificParts, NumberSpelling.writeFraction, hdigits, hlead, not_lt.mp hlead]
      | cons e es =>
        by_cases hlead : d.leadingExponent < 0
        · simp [scientificParts, NumberSpelling.writeFraction, hdigits, hlead, not_le.mpr hlead]
        · simp [scientificParts, NumberSpelling.writeFraction, hdigits, hlead, not_lt.mp hlead]

end

end Decimal

def Json.NumberText.double (n : NumberText) : Double := n.decimal.toDouble n.negative

namespace Double

theorem isShort_shortest (tie : Tie) {x : Double} (h : x.isFinite = true) :
    (shortest tie x.magnitude).IsShort where
  digits_le := digits_shortest_le tie (of_decide_eq_true h)
  nonzero := digits_shortest_ne_zero tie (of_decide_eq_true h)

/-- The JSON text of a finite number as a spelling. -/
def spelling (x : Double) (h : x.isFinite = true) : NumberSpelling :=
  .ofText (Decimal.compactParts x.negative (shortest .even x.magnitude)) true
    (Decimal.compactParts_wellFormed x.negative (isShort_shortest .even h))

theorem write_spelling (x : Double) (h : x.isFinite = true) (rest : List Char) :
    (x.spelling h).write rest = x.jsonChars ++ rest := by
  rw [jsonChars, if_pos h, NumberSpelling.write,
    Decimal.write_compactParts x.negative (x.spelling h) rfl rfl rfl rest, List.append_assoc]
  congr 2
  exact Decimal.negative_compactParts x.negative

/-- The JSON text of a finite number means that number, bit for bit. -/
theorem double_spelling (x : Double) (h : x.isFinite = true) : (x.spelling h).parts.double = x := by
  have hvalue := Decimal.value_compactParts x.negative (isShort_shortest .even h)
  calc (x.spelling h).parts.double
      = (shortest .even x.magnitude).toDouble x.negative := by
        simp only [NumberText.double, spelling, NumberSpelling.ofText, Decimal.negative_compactParts,
          Decimal.toDouble, Decimal.nearest_congr hvalue]
    _ = x := toDouble_shortest .even h

theorem value_spelling (x : Double) (h : x.isFinite = true) : (x.spelling h).parts.value = .ok (.float x) := by
  have hinteger : (x.spelling h).parts.integer? = none := Decimal.integer?_compactParts x.negative
  have hdouble : (x.spelling h).parts.decimal.toDouble (x.spelling h).parts.negative = x := x.double_spelling h
  rw [NumberText.value, hinteger]
  simp only [NumberText.float, hdouble, h, if_true]

end Double

end SyntaxTree
