import SyntaxTree.Proofs.ReadsBack
import SyntaxTree.Proofs.SpelledPlace

/-!
The value of a number's text. A text of up to 768 significant digits stands for the fraction that its digits,
its point and its exponent say. So the JSON text of a finite number, in either layout, stands for the shortest
decimal of that number and is read back to it.
-/

namespace SyntaxTree

/-! ### Digits -/

/-- A digit at the front counts by the number of digits behind it. -/
theorem ofDigitChars_cons_eq (c : Char) (cs : List Char) :
    Nat.ofDigitChars 10 (c :: cs) 0 = 10 ^ cs.length * (c.toNat - 48) + Nat.ofDigitChars 10 cs 0 := by
  rw [Nat.ofDigitChars_cons, Nat.ofDigitChars_eq_ofDigitChars_zero, Nat.mul_zero, Nat.zero_add]
  rfl

theorem toNat_of_isDigit {c : Char} (h : c.isDigit = true) : 48 ≤ c.toNat ∧ c.toNat ≤ 57 := by
  simp only [Char.isDigit, Bool.and_eq_true, decide_eq_true_eq, ge_iff_le, UInt32.le_iff_toNat_le] at h
  exact h

theorem ofDigitChars_lt {ds : List Char} (h : ∀ c ∈ ds, c.isDigit = true) :
    Nat.ofDigitChars 10 ds 0 < 10 ^ ds.length := by
  induction ds with
  | nil => exact Nat.one_pos
  | cons c cs ih =>
    have hc := toNat_of_isDigit (h c List.mem_cons_self)
    have htail := ih fun d hd => h d (List.mem_cons_of_mem _ hd)
    have hhead : 10 ^ cs.length * (c.toNat - 48) ≤ 10 ^ cs.length * 9 := Nat.mul_le_mul_left _ (by omega)
    rw [ofDigitChars_cons_eq, List.length_cons, Nat.pow_succ]
    omega

/-- A number of which the first digit is not zero has no fewer digits than its length. -/
theorem pow_le_ofDigitChars {c : Char} {cs : List Char} (h : c.isDigit = true) (hzero : c ≠ '0') :
    10 ^ cs.length ≤ Nat.ofDigitChars 10 (c :: cs) 0 := by
  have hc := toNat_of_isDigit h
  have hne : c.toNat ≠ 48 := fun heq => hzero (Char.toNat_inj.mp heq)
  have hhead : 10 ^ cs.length * 1 ≤ 10 ^ cs.length * (c.toNat - 48) := Nat.mul_le_mul_left _ (by omega)
  rw [ofDigitChars_cons_eq]
  omega

theorem ofDigitChars_dropWhile (ds : List Char) :
    Nat.ofDigitChars 10 (ds.dropWhile (· == '0')) 0 = Nat.ofDigitChars 10 ds 0 := by
  induction ds with
  | nil => rfl
  | cons c cs ih =>
    by_cases hc : c = '0'
    · rw [List.dropWhile_cons_of_pos (by simp [hc]), ih, hc, ofDigitChars_cons_eq]
      simp
    · rw [List.dropWhile_cons_of_neg (by simp [hc])]

/-- What the zeros at the end are taken from is what is left and as many zeros. -/
theorem exists_append_zeros (cs : List Char) :
    ∃ k, cs = (cs.reverse.dropWhile (· == '0')).reverse ++ List.replicate k '0' := by
  refine ⟨(cs.reverse.takeWhile (· == '0')).length, ?_⟩
  have hzeros : cs.reverse.takeWhile (· == '0') =
      List.replicate (cs.reverse.takeWhile (· == '0')).length '0' := by
    apply List.eq_replicate_of_mem
    intro c hc
    simpa using List.all_eq_true.mp List.all_takeWhile c hc
  have hsplit := congrArg List.reverse (List.takeWhile_append_dropWhile (p := (· == '0')) (l := cs.reverse))
  rw [List.reverse_append, List.reverse_reverse, hzeros, List.reverse_replicate] at hsplit
  exact hsplit.symm

/-- Without the zeros in front, a number below `10 ^ k` has at most `k` digits. -/
theorem length_dropWhile_le {ds : List Char} (h : ∀ c ∈ ds, c.isDigit = true) {k : Nat}
    (hlt : Nat.ofDigitChars 10 ds 0 < 10 ^ k) : (ds.dropWhile (· == '0')).length ≤ k := by
  cases hdrop : ds.dropWhile (· == '0') with
  | nil => exact Nat.zero_le _
  | cons c cs =>
    have hzero : c ≠ '0' := by
      have hhead := List.head?_dropWhile_not (· == '0') ds
      simpa [hdrop] using hhead
    have hmem : c ∈ ds.dropWhile (· == '0') := by
      rw [hdrop]
      exact List.mem_cons_self
    have hc : c.isDigit = true := h c ((List.dropWhile_sublist _).subset hmem)
    have hpow : 10 ^ cs.length < 10 ^ k := by
      calc 10 ^ cs.length ≤ Nat.ofDigitChars 10 (c :: cs) 0 := pow_le_ofDigitChars hc hzero
        _ = Nat.ofDigitChars 10 ds 0 := by rw [← hdrop, ofDigitChars_dropWhile]
        _ < 10 ^ k := hlt
    exact (Nat.pow_lt_pow_iff_right (by decide)).mp hpow

theorem Json.IsDigits.of_all {cs : List Char} (hne : cs ≠ []) (h : cs.all Char.isDigit = true) : IsDigits cs :=
  ⟨hne, List.all_eq_true.mp h⟩

theorem isDigit_toDigits (n : Nat) : Json.IsDigits (Nat.toDigits 10 n) :=
  ⟨Nat.toDigits_ne_nil, fun _ hc => Nat.isDigit_of_mem_toDigits (by decide) (by decide) hc⟩

/-- Only zero itself is written with a zero in front. -/
theorem toDigits_ne_zero_cons {n : Nat} (h : n ≠ 0) (cs : List Char) : Nat.toDigits 10 n ≠ '0' :: cs := by
  intro hdigits
  have hall := (isDigit_toDigits n).2
  have hvalue : n = Nat.ofDigitChars 10 cs 0 := by
    calc n = Nat.ofDigitChars 10 (Nat.toDigits 10 n) 0 := Nat.ofDigitChars_ten_toDigits.symm
      _ = Nat.ofDigitChars 10 cs 0 := by rw [hdigits, ofDigitChars_cons_eq]; simp
  have hlt : n < 10 ^ cs.length := by
    rw [hvalue]
    exact ofDigitChars_lt fun c hc => hall c (by rw [hdigits]; exact List.mem_cons_of_mem _ hc)
  cases cs with
  | nil => exact h (by simpa using hlt)
  | cons c cs =>
    have hlength := (Nat.length_toDigits_le_iff (by decide) (by simp)).mpr hlt
    rw [hdigits] at hlength
    simp at hlength

/-! ### The value of a text -/

namespace Json.NumberText

theorem fraction_eq (n : NumberText) : ∃ k, n.fraction = n.places ++ List.replicate k '0' :=
  exists_append_zeros n.fraction

theorem WellFormed.isDigit {n : NumberText} (hn : n.WellFormed) : ∀ c ∈ n.whole ++ n.fraction, c.isDigit = true := by
  intro c hc
  rcases List.mem_append.mp hc with hc | hc
  · exact hn.whole.2 c hc
  · exact hn.fraction c hc

/-- The absolute value that the digits, the point and the exponent of a text say. -/
def exact (n : NumberText) : ℚ :=
  Nat.ofDigitChars 10 (n.whole ++ n.fraction) 0 * (10 : ℚ) ^ (n.power - n.fraction.length)

/-- The digits of a text from the first that is not zero, save the zeros at the end of the fraction. -/
def digits (n : NumberText) : List Char := (n.whole ++ n.places).dropWhile (· == '0')

theorem decimal_eq (n : NumberText) : n.decimal =
    if n.digits.length ≤ digitLimit then ⟨Nat.ofDigitChars 10 n.digits 0, n.power - n.places.length⟩
    else ⟨Nat.ofDigitChars 10 (n.digits.take digitLimit ++ ['1']) 0,
      n.power - n.places.length + (n.digits.length - digitLimit - 1 : Nat)⟩ := rfl

/-- The zeros that are left out are those of a power of ten. -/
theorem exists_zeros (n : NumberText) : ∃ k : ℕ, n.fraction.length = n.places.length + k ∧
    Nat.ofDigitChars 10 (n.whole ++ n.fraction) 0 = 10 ^ k * Nat.ofDigitChars 10 n.digits 0 := by
  obtain ⟨k, hfraction⟩ := n.fraction_eq
  refine ⟨k, ?_, ?_⟩
  · have hlength := congrArg List.length hfraction
    rwa [List.length_append, List.length_replicate] at hlength
  · rw [digits, ofDigitChars_dropWhile, hfraction, ← List.append_assoc, Nat.ofDigitChars_append,
      Nat.ofDigitChars_replicate_zero]

/-- The zeros at either end of a text do not change what it says. -/
theorem exact_eq_digits (n : NumberText) :
    n.exact = Nat.ofDigitChars 10 n.digits 0 * (10 : ℚ) ^ (n.power - n.places.length) := by
  obtain ⟨k, hcount, hnumber⟩ := n.exists_zeros
  have hten : (10 : ℚ) ≠ 0 := by norm_num
  rw [exact, hnumber, hcount,
    show n.power - (n.places.length + k : ℕ) = (n.power - n.places.length) + -(k : ℤ) by push_cast; ring,
    zpow_add₀ hten, zpow_neg, zpow_natCast]
  push_cast
  field_simp

/-- A number of up to 768 significant digits stands for the fraction that its text says. -/
theorem value_decimal_of_length_le {n : NumberText} (h : n.digits.length ≤ digitLimit) :
    n.decimal.value = n.exact := by
  rw [decimal_eq, if_pos h, Decimal.value, exact_eq_digits]

section

variable {n : NumberText} (hdigits : ∀ c ∈ n.whole ++ n.fraction, c.isDigit = true)
include hdigits

theorem isDigit_places : ∀ c ∈ n.whole ++ n.places, c.isDigit = true := by
  intro c hc
  obtain ⟨k, hfraction⟩ := n.fraction_eq
  apply hdigits c
  rw [hfraction, ← List.append_assoc]
  exact List.mem_append_left _ hc

theorem isDigit_digits : ∀ c ∈ n.digits, c.isDigit = true :=
  fun c hc => isDigit_places hdigits c ((List.dropWhile_sublist _).subset hc)

/-- A number that is below `10 ^ 768` without its point and its exponent has no more digits than that. -/
theorem value_decimal (hlt : Nat.ofDigitChars 10 (n.whole ++ n.fraction) 0 < 10 ^ digitLimit) :
    n.decimal.value = n.exact := by
  obtain ⟨k, -, hnumber⟩ := n.exists_zeros
  apply value_decimal_of_length_le
  apply length_dropWhile_le (isDigit_places hdigits)
  calc Nat.ofDigitChars 10 (n.whole ++ n.places) 0 = Nat.ofDigitChars 10 n.digits 0 := (ofDigitChars_dropWhile _).symm
    _ ≤ 10 ^ k * Nat.ofDigitChars 10 n.digits 0 := Nat.le_mul_of_pos_left _ (Nat.pow_pos (by decide))
    _ = Nat.ofDigitChars 10 (n.whole ++ n.fraction) 0 := hnumber.symm
    _ < 10 ^ digitLimit := hlt

end

end Json.NumberText

end SyntaxTree
