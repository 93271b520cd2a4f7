import SyntaxTree.Proofs.Fits
import SyntaxTree.Proofs.Nearest
import SyntaxTree.Proofs.PositionalText

/-!
Numbers of any length. Of a very long number only so many digits are told apart, so it may round to another number than
its text says. But where the limit of the finite numbers lies, it is a whole number of steps of the last digit that is
kept, so what follows never decides whether a number is too large. And an integer that is short enough for a word
is read as what any other number of its value is read as.
-/

namespace SyntaxTree

open Json

namespace Double

/-! ### Too large -/

theorem exists_overflow_eq_natCast : ∃ count : ℕ, overflow = count := by
  have hcast : ∀ {low high : ℕ}, low ≤ high → ((2 ^ high - 2 ^ low : ℕ) : ℚ) = 2 ^ high - 2 ^ low := by
    intro low high h
    rw [Nat.cast_sub (Nat.pow_le_pow_right (by decide) h), Nat.cast_pow, Nat.cast_pow, Nat.cast_ofNat]
  exact ⟨_, (hcast (show 970 ≤ 1024 by decide)).symm⟩

/-- Behind 768 digits, what follows does not decide whether a number is too large. -/
theorem lt_overflow_iff_of_kept {kept : ℕ} {part : ℚ} (hkept : 10 ^ 767 ≤ kept) (hlow : 0 ≤ part) (hhigh : part < 1)
    (scale : ℤ) : (kept + part) * (10 : ℚ) ^ scale < overflow ↔ kept * (10 : ℚ) ^ scale < overflow := by
  rcases le_or_gt 0 scale with hscale | hscale
  · have hlarge : overflow ≤ kept * (10 : ℚ) ^ scale := by
      calc overflow ≤ 10 ^ 400 := overflow_le
        _ ≤ 10 ^ 767 := pow_le_pow_right₀ (by norm_num) (by decide)
        _ ≤ kept := by exact_mod_cast hkept
        _ ≤ kept * (10 : ℚ) ^ scale := le_mul_of_one_le_right (by positivity) (one_le_zpow₀ (by norm_num) hscale)
    have hmore : kept * (10 : ℚ) ^ scale ≤ (kept + part) * (10 : ℚ) ^ scale :=
      mul_le_mul_of_nonneg_right (by linarith) (by positivity)
    exact ⟨fun h => absurd h (not_lt.mpr (hlarge.trans hmore)), fun h => absurd h (not_lt.mpr hlarge)⟩
  · -- Below the point, the limit is a whole number of steps.
    obtain ⟨places, rfl⟩ : ∃ places : ℕ, scale = -(places : ℤ) := ⟨(-scale).toNat, by omega⟩
    obtain ⟨count, hcount⟩ := exists_overflow_eq_natCast
    have hpos : (0 : ℚ) < 10 ^ places := by positivity
    rw [zpow_neg, zpow_natCast, ← div_eq_mul_inv, ← div_eq_mul_inv, div_lt_iff₀ hpos, div_lt_iff₀ hpos, hcount]
    constructor
    · intro h
      linarith
    · intro h
      have hnat : kept + 1 ≤ count * 10 ^ places := Nat.succ_le_of_lt (by exact_mod_cast h)
      have hcast : (kept + 1 : ℚ) ≤ count * 10 ^ places := by exact_mod_cast hnat
      linarith

end Double

/-! ### Long numbers -/

namespace Json.NumberText

/-- Beyond the limit, the value of a text and the value that is rounded lie behind the same digits. -/
theorem exists_kept {n : NumberText} (hdigits : ∀ c ∈ n.whole ++ n.fraction, c.isDigit = true)
    (hmany : digitLimit < n.digits.length) : ∃ (kept : ℕ) (part : ℚ) (scale : ℤ), 10 ^ 767 ≤ kept ∧ 0 ≤ part ∧
      part < 1 ∧ n.exact = (kept + part) * 10 ^ scale ∧ n.decimal.value = (kept + 1 / 10) * 10 ^ scale := by
  obtain ⟨more, hmore⟩ : ∃ more, n.digits.length = digitLimit + (more + 1) :=
    ⟨n.digits.length - digitLimit - 1, by omega⟩
  have hall := isDigit_digits hdigits
  have hrest : (n.digits.drop digitLimit).length = more + 1 := by
    rw [List.length_drop]
    omega
  have hsplit : Nat.ofDigitChars 10 n.digits 0 = 10 ^ (more + 1) * Nat.ofDigitChars 10 (n.digits.take digitLimit) 0 +
      Nat.ofDigitChars 10 (n.digits.drop digitLimit) 0 := by
    rw [← hrest, ← Nat.ofDigitChars_eq_ofDigitChars_zero, ← Nat.ofDigitChars_append, List.take_append_drop]
  have hrestLt : Nat.ofDigitChars 10 (n.digits.drop digitLimit) 0 < 10 ^ (more + 1) := by
    rw [← hrest]
    exact ofDigitChars_lt fun c hc => hall c (List.mem_of_mem_drop hc)
  set kept := Nat.ofDigitChars 10 (n.digits.take digitLimit) 0 with hkept
  set rest := Nat.ofDigitChars 10 (n.digits.drop digitLimit) 0
  have hten : (10 : ℚ) ≠ 0 := by norm_num
  refine ⟨kept, rest / 10 ^ (more + 1), n.power - n.places.length + (more + 1 : ℕ), ?_, by positivity, ?_, ?_, ?_⟩
  · -- The first digit is not zero, so the digits that are kept reach the power of ten of the first.
    cases hcons : n.digits with
    | nil =>
      rw [hcons] at hmany
      exact absurd hmany (by decide)
    | cons c cs =>
      have hzero : c ≠ '0' := by
        have hhead := List.head?_dropWhile_not (· == '0') (n.whole ++ n.places)
        rw [← digits, hcons] at hhead
        simpa using hhead
      have hlength : (cs.take 767).length = 767 := by
        rw [List.length_take]
        rw [hcons, List.length_cons] at hmany
        simp only [digitLimit] at hmany
        omega
      calc 10 ^ 767 = 10 ^ (cs.take 767).length := by rw [hlength]
        _ ≤ Nat.ofDigitChars 10 (c :: cs.take 767) 0 :=
          pow_le_ofDigitChars (hall c (by rw [hcons]; exact List.mem_cons_self)) hzero
        _ = kept := by rw [hkept, hcons, show digitLimit = 767 + 1 from rfl, List.take_succ_cons]
  · rw [div_lt_one (by positivity)]
    exact_mod_cast hrestLt
  · rw [exact_eq_digits, hsplit, zpow_add₀ hten, zpow_natCast]
    push_cast
    field_simp
  · have hone : Nat.ofDigitChars 10 (n.digits.take digitLimit ++ ['1']) 0 = 10 * kept + 1 := by
      rw [Nat.ofDigitChars_append]
      rfl
    have hscale : n.power - n.places.length + ((more + 1 : ℕ) : ℤ) = n.power - n.places.length + more + 1 := by
      push_cast
      ring
    rw [decimal_eq, if_neg (Nat.not_le.mpr hmany), Decimal.value, hone, hscale, zpow_add_one₀ hten,
      show n.digits.length - digitLimit - 1 = more by omega]
    push_cast
    ring

section

variable {n : NumberText} (hdigits : ∀ c ∈ n.whole ++ n.fraction, c.isDigit = true)
include hdigits

/-- The value that is rounded is too large exactly if the value of the text is. -/
theorem value_decimal_lt_overflow_iff : n.decimal.value < Double.overflow ↔ n.exact < Double.overflow := by
  rcases Nat.lt_or_ge digitLimit n.digits.length with hmany | hfew
  · obtain ⟨kept, part, scale, hkept, hlow, hhigh, hexact, hvalue⟩ := exists_kept hdigits hmany
    rw [hexact, hvalue, Double.lt_overflow_iff_of_kept hkept hlow hhigh,
      Double.lt_overflow_iff_of_kept hkept (by norm_num) (by norm_num)]
  · rw [value_decimal_of_length_le hfew]

end

section

variable {n : NumberText} (hn : n.WellFormed)
include hn

/-- A number is read as a finite one exactly if it rounds to one. -/
theorem isFinite_double_iff {x : Double} (hx : Double.RoundsTo n.negative n.exact x) :
    n.double.isFinite = true ↔ x.isFinite = true := by
  have hdouble : Double.RoundsTo n.negative n.decimal.value n.double := n.decimal.roundsTo_toDouble n.negative
  rw [hdouble.isFinite_iff, hx.isFinite_iff]
  exact value_decimal_lt_overflow_iff hn.isDigit

/-- A number that a word of 64 bits holds is finite. -/
theorem isFinite_double_of_integer? {i : Int} (h : n.integer? = some i) : n.double.isFinite = true := by
  have hvalue : n.value = .ok (.integer i) := by rw [value, h]
  obtain ⟨-, hlow, hhigh⟩ := isReadable_of_value hvalue
  have habs : i.natAbs < 2 ^ 64 := by omega
  rw [← ofInt_of_integer? hn h, Double.ofInt, (Decimal.roundsTo_toDouble _ _).isFinite_iff, Decimal.value, zpow_zero,
    mul_one]
  calc (i.natAbs : ℚ) < 2 ^ 64 := by exact_mod_cast habs
    _ ≤ 2 ^ 970 := pow_le_pow_right₀ (by norm_num) (by decide)
    _ ≤ Double.overflow := Double.le_overflow

/-- A number is read as the nearest binary64 number, unless that is infinite. -/
theorem numberOfValue_value_eq : (do numberOfValue (← n.value)) =
    if n.double.isFinite then .ok n.double else .error .malformed := by
  split
  · rename_i hfinite
    exact numberOfValue_value hn hfinite
  · rename_i hinfinite
    cases hinteger : n.integer? with
    | some i => exact absurd (isFinite_double_of_integer? hn hinteger) hinfinite
    | none =>
      have hfloat : n.float = .error .malformed := if_neg hinfinite
      rw [value, hinteger]
      dsimp only
      rw [hfloat]
      rfl

end

/-- A number of up to 768 significant digits is read as what it rounds to. -/
theorem double_eq_of_roundsTo {n : NumberText} {x : Double} (hfew : n.digits.length ≤ digitLimit)
    (hx : Double.RoundsTo n.negative n.exact x) : n.double = x := by
  rw [← value_decimal_of_length_le hfew] at hx
  exact (n.decimal.roundsTo_toDouble n.negative).unique hx

/-- What a text says rounds to some number. -/
theorem exists_roundsTo (n : NumberText) : ∃ x, Double.RoundsTo n.negative n.exact x := by
  refine ⟨Decimal.toDouble n.negative ⟨Nat.ofDigitChars 10 n.digits 0, n.power - n.places.length⟩, ?_⟩
  rw [exact_eq_digits]
  exact Decimal.roundsTo_toDouble n.negative ⟨_, _⟩

end Json.NumberText

end SyntaxTree
