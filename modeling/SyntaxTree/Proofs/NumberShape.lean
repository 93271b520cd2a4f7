import SyntaxTree.Proofs.NumberTexts
import SyntaxTree.Proofs.ShortestDecimal

/-!
What the canonical text of a number looks like. That of a finite number has a sign if the number has one, the digits
of an integer, and a point with more digits if the number is not an integer; the first digit of several is not zero
and the last one after a point is not. Its significant digits are those of the shortest decimal, so no decimal with
fewer of them rounds to the number, and none with as many that does is closer to it.
-/

namespace SyntaxTree

open Json

/-! ### Significant digits -/

/-- How many digits a text has from the first to the last that is not zero. -/
def significant (text : List Char) : Nat :=
  (((text.filter Char.isDigit).dropWhile (· == '0')).reverse.dropWhile (· == '0')).length

theorem dropWhile_zeros_append (count : Nat) (cs : List Char) :
    (List.replicate count '0' ++ cs).dropWhile (· == '0') = cs.dropWhile (· == '0') := by
  apply List.dropWhile_append_of_pos
  intro c hc
  rw [List.eq_of_mem_replicate hc]
  rfl

/-- Zeros around digits are not significant. -/
theorem significant_le {text digits : List Char} {front back : Nat}
    (h : text.filter Char.isDigit = List.replicate front '0' ++ digits ++ List.replicate back '0') :
    significant text ≤ digits.length := by
  rw [significant, h, List.append_assoc, dropWhile_zeros_append, List.dropWhile_append]
  split
  · rw [← List.append_nil (List.replicate back '0'), dropWhile_zeros_append]
    exact Nat.zero_le _
  · rw [List.reverse_append, List.reverse_replicate, dropWhile_zeros_append]
    calc ((digits.dropWhile (· == '0')).reverse.dropWhile (· == '0')).length
        ≤ (digits.dropWhile (· == '0')).reverse.length := (List.dropWhile_sublist _).length_le
      _ ≤ digits.length := by
        rw [List.length_reverse]
        exact (List.dropWhile_sublist _).length_le

/-- Digits stand for a number of as many digits as are significant, and zeros after it. -/
theorem ofDigitChars_significant {digits : List Char} (h : ∀ c ∈ digits, c.isDigit = true) :
    ∃ core zeros : Nat, core < 10 ^ significant digits ∧ Nat.ofDigitChars 10 digits 0 = core * 10 ^ zeros := by
  obtain ⟨zeros, hzeros⟩ := exists_append_zeros (digits.dropWhile (· == '0'))
  set core := ((digits.dropWhile (· == '0')).reverse.dropWhile (· == '0')).reverse with hcore
  have hsignificant : significant digits = core.length := by
    rw [significant, List.filter_eq_self.mpr h, hcore, List.length_reverse]
  have hdigits : ∀ c ∈ core, c.isDigit = true := by
    intro c hc
    apply h c
    apply (List.dropWhile_sublist (· == '0')).subset
    rw [hzeros]
    exact List.mem_append_left _ hc
  refine ⟨Nat.ofDigitChars 10 core 0, zeros, ?_, ?_⟩
  · rw [hsignificant]
    exact ofDigitChars_lt hdigits
  · rw [← ofDigitChars_dropWhile, hzeros, Nat.ofDigitChars_append, Nat.ofDigitChars_replicate_zero, Nat.mul_comm]

namespace Decimal

/-- A decimal has the value of one with only its significant digits. -/
theorem exists_significant (d : Decimal) :
    ∃ e : Decimal, e.value = d.value ∧ e.digits < 10 ^ significant d.digitChars := by
  obtain ⟨core, zeros, hcore, hdigits⟩ := ofDigitChars_significant (isDigit_toDigits d.digits).2
  rw [Nat.ofDigitChars_ten_toDigits] at hdigits
  refine ⟨⟨core, d.exponent + zeros⟩, ?_, hcore⟩
  rw [value, value, hdigits, zpow_add₀ (by norm_num), zpow_natCast]
  push_cast
  ring

/-- The positional layout adds no digits but zeros, at one end. -/
theorem filter_positional (d : Decimal) : ∃ front back,
    d.positional.filter Char.isDigit = List.replicate front '0' ++ d.digitChars ++ List.replicate back '0' := by
  have hdigits : d.digitChars.filter Char.isDigit = d.digitChars := List.filter_eq_self.mpr (isDigit_toDigits _).2
  by_cases hexponent : 0 ≤ d.exponent
  · refine ⟨0, d.exponent.toNat, ?_⟩
    rw [positional, if_pos hexponent, List.filter_append, hdigits, List.filter_replicate_of_pos (by rfl)]
    rfl
  · refine ⟨d.placeCount + 1 - d.digitChars.length, 0, ?_⟩
    have hpadded : (pointParts false d).whole ++ (pointParts false d).fraction = d.padded := List.take_append_drop _ _
    have hfilter : d.padded.filter Char.isDigit = d.padded := List.filter_eq_self.mpr fun c => isDigit_padded d
    rw [positional_eq_pointParts false d hexponent, List.filter_append, List.filter_cons_of_neg (by decide),
      ← List.filter_append, hpadded, hfilter, padded, List.replicate_zero, List.append_nil]

/-- A decimal that does not end in a zero has none at the end of its text after the point. -/
theorem getLast?_fraction {d : Decimal} (hdigits : d.digits % 10 ≠ 0) (negative : Bool) :
    (positionalParts negative d).fraction.getLast? ≠ some '0' := by
  unfold positionalParts
  split
  · rw [List.getLast?_nil]
    exact nofun
  · intro hlast
    obtain ⟨digits, hfraction⟩ := List.getLast?_eq_some_iff.mp hlast
    apply hdigits
    rw [← pointParts_number negative d, hfraction, ← List.append_assoc, Nat.ofDigitChars_append,
      Nat.ofDigitChars_cons, Nat.ofDigitChars_nil, Nat.sub_self, Nat.add_zero, Nat.mul_mod_right]

theorem fraction_positionalParts_eq_nil_iff (negative : Bool) (d : Decimal) :
    (positionalParts negative d).fraction = [] ↔ 0 ≤ d.exponent := by
  unfold positionalParts
  split
  · simpa
  · rename_i hexponent
    exact iff_of_false (fraction_pointParts_ne_nil negative d hexponent) hexponent

end Decimal

namespace Double

theorem filter_signChars (negative : Bool) : (signChars negative).filter Char.isDigit = [] := by
  cases negative <;> rfl

section

variable {x : Double}

/-- The text of a finite number has no significant digits but those of its shortest decimal. -/
theorem significant_textChars_le (h : x.isFinite = true) :
    significant x.textChars ≤ (shortest .above x.magnitude).digitChars.length := by
  obtain ⟨front, back, hfilter⟩ := (shortest .above x.magnitude).filter_positional
  apply significant_le
  rw [textChars_of_isFinite h, List.filter_append, filter_signChars, List.nil_append]
  exact hfilter

/-! ### The shortest text -/

/-- The text of a finite number other than zero says a decimal that rounds to the number. No decimal with fewer
significant digits rounds to it, and none with as many that does is closer to its exact value. -/
theorem text_shortest (hfinite : x.isFinite = true) (hzero : x.magnitude ≠ 0) :
    ∃ printed : ℚ, denoted? x.text = some (x.negative, printed) ∧ RoundsTo x.negative printed x ∧
      ∀ (negative : Bool) (d : Decimal), RoundsTo negative d.value x →
        significant x.textChars ≤ significant d.digitChars ∧
          (significant d.digitChars = significant x.textChars → |printed - x.exact| ≤ |d.value - x.exact|) := by
  have hmagnitude : x.magnitude < infiniteMagnitude := of_decide_eq_true hfinite
  have hlength := significant_textChars_le hfinite
  refine ⟨(shortest .above x.magnitude).value, Node.denoted?_textChars hfinite,
    ⟨rfl, Decimal.nearest_eq_iff.mp (nearest_shortest .above hmagnitude)⟩, fun negative d hd => ?_⟩
  obtain ⟨e, hvalue, hdigits⟩ := d.exists_significant
  obtain ⟨hfewest, hclosest⟩ := shortest_optimal .above hmagnitude hzero (d := e) (hvalue ▸ hd.nearest) hdigits
  have hnonzero := digits_ne_zero_of_nearest (nearest_shortest .above hmagnitude) hzero
  constructor
  · have hpos : significant d.digitChars ≠ 0 := by
      intro hnone
      rw [hnone] at hfewest
      omega
    exact hlength.trans ((Nat.length_toDigits_le_iff (by decide) (Nat.pos_of_ne_zero hpos)).mpr hfewest)
  · intro hsame
    rw [← hvalue]
    apply hclosest
    calc 10 ^ (significant d.digitChars - 1) ≤ 10 ^ ((shortest .above x.magnitude).digitChars.length - 1) :=
          Nat.pow_le_pow_right (by decide) (by omega)
      _ ≤ (shortest .above x.magnitude).digits := Decimal.pow_le_digits hnonzero

/-- Of one digit, the decimal of three tenths is the closest that rounds to it. -/
theorem text_shortest_of_three_tenths :
    (ofBits 0x3FD3333333333333).isFinite = true ∧ (ofBits 0x3FD3333333333333).magnitude ≠ 0 ∧
    ∃ printed : ℚ, denoted? "0.3" = some (false, printed) ∧ RoundsTo false printed (ofBits 0x3FD3333333333333) ∧
      ∀ (negative : Bool) (d : Decimal), RoundsTo negative d.value (ofBits 0x3FD3333333333333) →
        1 ≤ significant d.digitChars ∧ (significant d.digitChars = 1 →
          |printed - (ofBits 0x3FD3333333333333).exact| ≤ |d.value - (ofBits 0x3FD3333333333333).exact|) := by
  have htext : (ofBits 0x3FD3333333333333).text = "0.3" := by decide +kernel
  have hchars : significant (ofBits 0x3FD3333333333333).textChars = 1 := by decide +kernel
  have hshortest := text_shortest (x := ofBits 0x3FD3333333333333) (by decide) (by decide)
  rw [htext, hchars] at hshortest
  exact ⟨by decide, by decide, hshortest⟩

/-! ### The shape of a text -/

/-- A number is finite, no number, or one of the two infinities. -/
theorem class_cases (x : Double) : x.isFinite = true ∨ x.isNaN = true ∨ ∃ negative, x = infinity negative := by
  rcases Nat.lt_trichotomy x.magnitude infiniteMagnitude with hlt | heq | hgt
  · exact .inl (decide_eq_true hlt)
  · refine .inr (.inr ⟨x.negative, ?_⟩)
    cases x
    simp only at heq
    simp only [infinity, heq]
  · exact .inr (.inl (decide_eq_true hgt))

/-- The names of what is not finite are the texts of nothing else. -/
theorem text_eq_name_iff (x : Double) : (x.text = "NaN" ↔ x.isNaN = true) ∧
    (x.text = "+Inf" ↔ x = infinity false) ∧ (x.text = "-Inf" ↔ x = infinity true) := by
  rcases x.class_cases with hfinite | hnan | ⟨negative, rfl⟩
  · have hnone := ofName?_text_eq_none hfinite
    have hnotInfinity : ∀ negative, x ≠ infinity negative := by
      rintro negative rfl
      cases hfinite
    have hnotName : ∀ name : String, ofName? name ≠ none → x.text ≠ name := by
      rintro name hname rfl
      exact hname hnone
    simp only [hnotInfinity, (not_isInfinite_of_isFinite hfinite).2, hnotName "NaN" (by decide),
      hnotName "+Inf" (by decide), hnotName "-Inf" (by decide), iff_self, and_self,
      Bool.false_eq_true]
  · have htext : x.text = "NaN" := by
      rw [text, textChars, if_pos hnan]
      rfl
    have hnotInfinity : ∀ negative, x ≠ infinity negative := by
      rintro negative rfl
      cases hnan
    rw [htext]
    simp only [hnotInfinity, hnan, iff_false]
    decide
  · cases negative <;> decide

/-- The shape of the text of a finite number: a sign, digits of which the first of several is not zero, and a point
with digits of which the last is not zero. The sign is there for a negative number and the point for what is not an
integer. -/
structure HasShape (x : Double) (whole fraction : List Char) : Prop where
  text : x.textChars = signChars x.negative ++ whole ++ (if fraction = [] then [] else '.' :: fraction)
  isDigits : IsDigits whole
  noLeadingZero : ∀ c cs, whole ≠ '0' :: c :: cs
  isDigit_fraction : ∀ c ∈ fraction, c.isDigit = true
  noTrailingZero : fraction.getLast? ≠ some '0'
  sign : '-' ∈ x.textChars ↔ x.negative = true
  point : '.' ∈ x.textChars ↔ ¬∃ n : ℤ, x.exact = n

def textParts (x : Double) : NumberText := Decimal.positionalParts x.negative (shortest .above x.magnitude)

theorem textChars_eq_textParts (hfinite : x.isFinite = true) : x.textChars =
    signChars x.negative ++ x.textParts.whole ++
    (if x.textParts.fraction = [] then [] else '.' :: x.textParts.fraction) := by
  have hexponent : x.textParts.exponent = none := Decimal.exponent_positionalParts x.negative _
  have hnegative : x.textParts.negative = x.negative := Decimal.negative_positionalParts x.negative _
  calc x.textChars = (x.textSpelling hfinite).write [] := by rw [write_textSpelling hfinite, List.append_nil]
    _ = signChars x.textParts.negative ++
        (x.textParts.whole ++ NumberSpelling.writeFraction x.textParts.fraction []) := by
      rw [NumberSpelling.write, NumberSpelling.writeUnsigned, NumberSpelling.writeExponent,
        show (x.textSpelling hfinite).parts = x.textParts from rfl, hexponent]
    _ = _ := by rw [hnegative, NumberSpelling.writeFraction, List.append_nil, List.append_assoc]

/-- There are digits after the point exactly if the number is not an integer. -/
theorem fraction_textParts_eq_nil_iff (hfinite : x.isFinite = true) :
    x.textParts.fraction = [] ↔ ∃ n : ℤ, x.exact = n := by
  rw [textParts, Decimal.fraction_positionalParts_eq_nil_iff,
    exponent_shortest_nonneg_iff .above (of_decide_eq_true hfinite)]
  constructor
  · rintro ⟨count, hcount⟩
    exact ⟨count, hcount⟩
  · rintro ⟨n, hn⟩
    have hnonneg : (0 : ℚ) ≤ n := hn ▸ absolute_nonneg x.magnitude
    lift n to ℕ using by exact_mod_cast hnonneg
    exact ⟨n, hn⟩

theorem getLast?_fraction_textParts (hfinite : x.isFinite = true) : x.textParts.fraction.getLast? ≠ some '0' := by
  by_cases hzero : x.magnitude = 0
  · have hnone : x.textParts.fraction = [] := by
      rw [textParts, Decimal.fraction_positionalParts_eq_nil_iff, shortest, if_pos hzero]
    rw [hnone, List.getLast?_nil]
    exact (Option.some_ne_none '0').symm
  · exact Decimal.getLast?_fraction (digits_shortest_mod .above (of_decide_eq_true hfinite) hzero) x.negative

theorem exists_hasShape (hfinite : x.isFinite = true) : ∃ whole fraction, HasShape x whole fraction := by
  have hwell : x.textParts.WellFormed :=
    Decimal.positionalParts_wellFormed x.negative _ (isShort_shortest .above hfinite)
  have hother : ∀ {c : Char}, c.isDigit = false → c ∉ x.textParts.whole ∧ c ∉ x.textParts.fraction := by
    intro c hc
    exact ⟨fun hmem => ne_of_isDigit (hwell.whole.2 c hmem) hc rfl,
      fun hmem => ne_of_isDigit (hwell.fraction c hmem) hc rfl⟩
  refine ⟨x.textParts.whole, x.textParts.fraction,
    { text := textChars_eq_textParts hfinite
      isDigits := hwell.whole
      noLeadingZero := hwell.noLeadingZero
      isDigit_fraction := hwell.fraction
      noTrailingZero := getLast?_fraction_textParts hfinite
      sign := ?_
      point := ?_ }⟩
  · obtain ⟨hwhole, hfraction⟩ := hother (c := '-') (by decide)
    rw [textChars_eq_textParts hfinite]
    cases x.negative <;> split <;> simp [signChars, hwhole, hfraction]
  · obtain ⟨hwhole, hfraction⟩ := hother (c := '.') (by decide)
    rw [textChars_eq_textParts hfinite, ← fraction_textParts_eq_nil_iff hfinite]
    cases x.negative <;> split <;> simp [signChars, *]

end

/-- The text of a number is one of three names for what is not finite, and for nothing else; that of a finite number
is laid out with a sign, digits and a point, each where the number asks for it. -/
theorem text_shape (x : Double) : ((x.text = "NaN" ↔ x.isNaN = true) ∧ (x.text = "+Inf" ↔ x = infinity false) ∧
    (x.text = "-Inf" ↔ x = infinity true)) ∧
    (x.isFinite = true → ∃ whole fraction, HasShape x whole fraction) :=
  ⟨x.text_eq_name_iff, exists_hasShape⟩

/-- Negative zero has its sign and no point. -/
theorem text_shape_of_negative_zero : (⟨true, 0, by decide⟩ : Double).text = "-0" ∧
    (⟨true, 0, by decide⟩ : Double).isFinite = true ∧ ∃ whole fraction, HasShape ⟨true, 0, by decide⟩ whole fraction :=
  ⟨by decide, rfl, (text_shape ⟨true, 0, by decide⟩).2 rfl⟩

end Double

end SyntaxTree
