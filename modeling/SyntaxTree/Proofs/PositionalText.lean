import SyntaxTree.Proofs.Nearest
import SyntaxTree.Proofs.NodeText

/-!
The canonical text of a number. That of a finite number is itself a JSON number, laid out without an exponent, and
is read as that number, whether it goes by way of an integer or not; the texts of the others are their names. So
the text tells all numbers apart, save that what is no number is written in one way.
-/

namespace SyntaxTree

open Json

/-! ### Integers and other numbers -/

namespace Json.NumberText

/-- A number that is read as an integer stands for the same binary64 number as any other. -/
theorem ofInt_of_integer? {n : NumberText} (hn : n.WellFormed) {i : Int} (h : n.integer? = some i) :
    Double.ofInt i = n.double := by
  simp only [integer?] at h
  split at h
  · rename_i hplain
    obtain ⟨hfraction, hexponent⟩ := hplain
    have hsign : (decide (i < 0) = n.negative ∧ i.natAbs = Nat.ofDigitChars 10 n.whole 0) ∧
        Nat.ofDigitChars 10 n.whole 0 < 0x10000000000000000 := by
      split at h
      · rename_i hnegative
        split at h
        · cases h
          simp only [hnegative, decide_eq_true_eq]
          omega
        · cases h
      · rename_i hnegative
        split at h
        · cases h
          simp only [Bool.not_eq_true] at hnegative
          simp only [hnegative, decide_eq_false_iff_not]
          omega
        · cases h
    obtain ⟨⟨hnegative, habs⟩, hsmall⟩ := hsign
    have hvalue : n.decimal.value = (⟨i.natAbs, 0⟩ : Decimal).value := by
      have hdigits : ∀ c ∈ n.whole ++ n.fraction, c.isDigit = true := by
        rw [hfraction, List.append_nil]
        exact hn.whole.2
      have hlimit : Nat.ofDigitChars 10 (n.whole ++ n.fraction) 0 < 10 ^ digitLimit := by
        rw [hfraction, List.append_nil]
        calc Nat.ofDigitChars 10 n.whole 0 < 10 ^ 20 := by omega
          _ ≤ 10 ^ digitLimit := Nat.pow_le_pow_right (by decide) (by decide)
      rw [value_decimal hdigits hlimit, exact, hfraction, List.append_nil, power, hexponent, habs, Decimal.value]
      rfl
    simp only [Double.ofInt, double, Decimal.toDouble, hnegative, Decimal.nearest_congr hvalue]
  · cases h

/-- A number that is not too large is read as the nearest binary64 number, by way of an integer or not. -/
theorem numberOfValue_value {n : NumberText} (hn : n.WellFormed) (hfinite : n.double.isFinite = true) :
    (do numberOfValue (← n.value)) = .ok n.double := by
  rw [value]
  cases hinteger : n.integer? with
  | some i =>
    dsimp only
    rw [ok_bind, numberOfValue, ofInt_of_integer? hn hinteger]
  | none =>
    have hfloat : n.float = .ok (.float n.double) := if_pos hfinite
    dsimp only
    rw [hfloat, ok_bind, numberOfValue]

end Json.NumberText

/-! ### The layout -/

namespace Decimal

section

variable (negative : Bool) (d : Decimal)

def positionalParts : NumberText :=
  if 0 ≤ d.exponent then { integerParts negative d with fraction := [] } else pointParts negative d

theorem negative_positionalParts : (positionalParts negative d).negative = negative := by
  unfold positionalParts
  split <;> rfl

theorem exponent_positionalParts : (positionalParts negative d).exponent = none := by
  unfold positionalParts
  split <;> rfl

theorem positionalParts_wellFormed (hd : d.IsShort) : (positionalParts negative d).WellFormed := by
  unfold positionalParts
  split
  · have hinteger := integerParts_wellFormed negative d hd
    exact { whole := hinteger.whole, noLeadingZero := hinteger.noLeadingZero, fraction := List.forall_mem_nil _,
            exponent := hinteger.exponent }
  · exact pointParts_wellFormed negative d hd (by omega)

/-- Without its fraction an integer is the numerator of the decimal. -/
theorem integerParts_whole : Nat.ofDigitChars 10 (integerParts negative d).whole 0 = d.numerator := by
  rw [integerParts, Nat.ofDigitChars_append, digits_digitChars, Nat.ofDigitChars_replicate_zero, numerator,
    Nat.mul_comm]

theorem value_of_exponent_nonneg {d : Decimal} (hexponent : 0 ≤ d.exponent) :
    d.denominator = 1 ∧ d.value = d.numerator := by
  have hdenominator : d.denominator = 1 := by
    rw [denominator, show (-d.exponent).toNat = 0 by omega, pow_zero]
  exact ⟨hdenominator, by rw [← value_mul_denominator, hdenominator, Nat.cast_one, mul_one]⟩

theorem exact_positionalParts : (positionalParts negative d).exact = d.value := by
  unfold positionalParts
  split
  · rename_i hexponent
    rw [NumberText.exact, List.append_nil, integerParts_whole, (value_of_exponent_nonneg hexponent).2]
    simp [NumberText.power, integerParts]
  · exact exact_pointParts negative d (by omega)

theorem value_positionalParts (hd : d.IsShort) (hfinite : d.nearest < Double.infiniteMagnitude) :
    (positionalParts negative d).decimal.value = d.value := by
  by_cases hexponent : 0 ≤ d.exponent
  · have hparts : positionalParts negative d = { integerParts negative d with fraction := [] } := if_pos hexponent
    have hwhole := (integerParts_wellFormed negative d hd).whole.2
    have hlimit : d.numerator < 10 ^ NumberText.digitLimit := by
      apply Double.lt_ten_pow_of_lt_overflow (by decide)
      rw [← (value_of_exponent_nonneg hexponent).2]
      exact nearest_lt_iff.mp hfinite
    rw [← exact_positionalParts negative d, hparts]
    exact NumberText.value_decimal (by simpa using hwhole) (by simpa [integerParts_whole] using hlimit)
  · rw [positionalParts, if_neg hexponent]
    exact value_pointParts negative d hd (by omega)

variable {d}

theorem write_positionalParts (n : NumberSpelling) (hparts : n.parts = positionalParts negative d)
    (rest : List Char) : n.writeUnsigned rest = d.positional ++ rest := by
  rw [NumberSpelling.writeUnsigned, NumberSpelling.writeExponent, hparts, exponent_positionalParts, positionalParts,
    positional]
  split
  · simp [integerParts, NumberSpelling.writeFraction]
  · rename_i hexponent
    rw [NumberSpelling.writeFraction, if_neg (fraction_pointParts_ne_nil negative d hexponent),
      ← List.cons_append, ← List.append_assoc, ← positional_eq_pointParts negative d hexponent, positional,
      if_neg hexponent]

end

end Decimal

namespace Double

/-! ### Numbers -/

section

variable {x : Double}

theorem not_isInfinite_of_isFinite (h : x.isFinite = true) : x.isInfinite = false ∧ x.isNaN = false := by
  simp only [isFinite, isInfinite, isNaN, decide_eq_true_eq, decide_eq_false_iff_not] at *
  omega

def textSpelling (x : Double) (h : x.isFinite = true) : NumberSpelling :=
  .ofText (Decimal.positionalParts x.negative (shortest .above x.magnitude)) false
    (Decimal.positionalParts_wellFormed x.negative (shortest .above x.magnitude) (isShort_shortest .above h))

theorem textChars_of_isFinite (h : x.isFinite = true) :
    x.textChars = signChars x.negative ++ (shortest .above x.magnitude).positional := by
  obtain ⟨hinfinite, hnan⟩ := not_isInfinite_of_isFinite h
  rw [textChars, if_neg (by simp [hnan]), if_neg (by simp [hinfinite])]

theorem write_textSpelling (h : x.isFinite = true) (rest : List Char) :
    (x.textSpelling h).write rest = x.textChars ++ rest := by
  rw [textChars_of_isFinite h, NumberSpelling.write, Decimal.write_positionalParts x.negative _ rfl, List.append_assoc]
  congr 2
  exact Decimal.negative_positionalParts x.negative _

/-- The canonical text of a finite number means that number, bit for bit. -/
theorem double_textSpelling (h : x.isFinite = true) : (x.textSpelling h).parts.double = x := by
  have hfinite : x.magnitude < infiniteMagnitude := of_decide_eq_true h
  have hvalue := Decimal.value_positionalParts x.negative _ (isShort_shortest .above h)
    ((nearest_shortest .above hfinite).trans_lt hfinite)
  calc (x.textSpelling h).parts.double
      = (shortest .above x.magnitude).toDouble x.negative := by
        simp only [NumberText.double, textSpelling, NumberSpelling.ofText, Decimal.negative_positionalParts,
          Decimal.toDouble, Decimal.nearest_congr hvalue]
    _ = x := toDouble_shortest .above h

theorem readDouble_textChars (h : x.isFinite = true) {bound : Nat} (hbound : 1 < bound) (room : Nat)
    {rest : List Char} (hrest : Ends rest) : readDouble bound room (x.textChars ++ rest) = .ok (x, rest) := by
  have hread : readDouble bound room ((x.textSpelling h).write rest) =
      leaving rest (do numberOfValue (← (x.textSpelling h).parts.value)) :=
    readContent_write (s := .number (x.textSpelling h)) .number hrest hbound
  rw [← write_textSpelling h, hread, NumberText.numberOfValue_value (x.textSpelling h).wellFormed,
    double_textSpelling h, leaving_ok]
  rw [double_textSpelling h, h]

theorem ofName?_text (h : x.isFinite = false) : ofName? x.text = some x.canonical := by
  have hvalue := Node.numberOfValue_toValue x
  rw [toValue, if_neg (by simp [h]), numberOfValue] at hvalue
  split at hvalue
  · rename_i y hy
    rw [hy, Except.ok.inj hvalue]
  · cases hvalue

/-- The text of a finite number has only digits, a sign and a point. -/
theorem mem_textChars (h : x.isFinite = true) {c : Char} (hc : c ∈ x.textChars) :
    c.isDigit = true ∨ c = '-' ∨ c = '.' := by
  have hwell := (x.textSpelling h).wellFormed
  have hexponent : (x.textSpelling h).parts.exponent = none := Decimal.exponent_positionalParts x.negative _
  have hwrite := write_textSpelling h []
  rw [List.append_nil, NumberSpelling.write, NumberSpelling.writeUnsigned, NumberSpelling.writeExponent, hexponent,
    NumberSpelling.writeFraction, signChars] at hwrite
  rw [← hwrite] at hc
  rcases List.mem_append.mp hc with hc | hc
  · split at hc
    · exact .inr (.inl (List.mem_singleton.mp hc))
    · cases hc
  · rcases List.mem_append.mp hc with hc | hc
    · exact .inl (hwell.whole.2 c hc)
    · split at hc
      · cases hc
      · rw [List.append_nil] at hc
        rcases List.mem_cons.mp hc with hc | hc
        · exact .inr (.inr hc)
        · exact .inl (hwell.fraction c hc)

theorem textChars_ne_nil (h : x.isFinite = true) : x.textChars ≠ [] := by
  intro hempty
  have hwrite := write_textSpelling h []
  rw [List.append_nil, hempty, NumberSpelling.write, NumberSpelling.writeUnsigned] at hwrite
  exact (x.textSpelling h).wellFormed.whole.1 (List.append_eq_nil_iff.mp (List.append_eq_nil_iff.mp hwrite).2).1

theorem textChars_of_not_isFinite (h : x.isFinite = false) :
    x.textChars = "NaN".toList ∨ x.textChars = "+Inf".toList ∨ x.textChars = "-Inf".toList := by
  have hinfinite : x.isNaN = false → x.isInfinite = true := by
    simp only [isFinite, isInfinite, isNaN, decide_eq_true_eq, decide_eq_false_iff_not] at *
    omega
  unfold textChars
  cases hnan : x.isNaN
  · rw [hinfinite hnan]
    cases x.negative
    · exact .inr (.inl rfl)
    · exact .inr (.inr rfl)
  · exact .inl rfl

theorem ofName?_text_eq_none (h : x.isFinite = true) : ofName? x.text = none := by
  have hne : ∀ {name : String} (c : Char), c ∈ name.toList → ¬(c.isDigit = true ∨ c = '-' ∨ c = '.') →
      x.text ≠ name := by
    rintro name c hc hother rfl
    rw [text, String.toList_ofList] at hc
    exact hother (mem_textChars h hc)
  rw [ofName?, if_neg (hne 'N' (by decide) (by decide)), if_neg (hne 'I' (by decide) (by decide)),
    if_neg (hne 'I' (by decide) (by decide))]

/-- The canonical text of a number determines it, save that what is no number is written in one way. -/
theorem canonical_eq_of_textChars {y : Double} (h : x.textChars = y.textChars) : x.canonical = y.canonical := by
  have htext : x.text = y.text := congrArg String.ofList h
  cases hx : x.isFinite <;> cases hy : y.isFinite
  · have hname := ofName?_text hx
    rw [htext, ofName?_text hy] at hname
    exact (Option.some.inj hname).symm
  · have hname := ofName?_text hx
    rw [htext, ofName?_text_eq_none hy] at hname
    cases hname
  · have hname := ofName?_text hy
    rw [← htext, ofName?_text_eq_none hx] at hname
    cases hname
  · have hread := readDouble_textChars hx (Nat.lt_succ_self 1) 0 ends_nil
    rw [h, readDouble_textChars hy (Nat.lt_succ_self 1) 0 ends_nil] at hread
    cases hread
    rfl

end

end Double

end SyntaxTree
