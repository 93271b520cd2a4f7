import SyntaxTree.Proofs.NumberReading

/-!
Three ways to write an integer: its digits alone, with a zero after the point, and with a zero for its exponent. The
first may be read by way of a word of 64 bits and the others never are, yet all three are the same number or too
large together, wherever a number may stand.
-/

namespace SyntaxTree

open Json

/-- An integer as it is written: a sign, and digits of which the first of several is not zero. -/
structure IntegerText where
  negative : Bool
  whole : List Char
  isDigits : IsDigits whole
  noLeadingZero : ∀ c cs, whole ≠ '0' :: c :: cs

/-- What may stand behind an integer and leave it the same number. -/
inductive IntegerForm where
  | plain
  | point
  | exponent
deriving DecidableEq

namespace IntegerForm

/-- The text behind the digits. -/
def ending : IntegerForm → String
  | plain => ""
  | point => ".0"
  | exponent => "e0"

end IntegerForm

namespace IntegerText

def text (i : IntegerText) : String := String.ofList (Double.signChars i.negative ++ i.whole)

def magnitude (i : IntegerText) : ℕ := Nat.ofDigitChars 10 i.whole 0

/-- The parts of an integer in one of its forms. -/
def parts (i : IntegerText) : IntegerForm → NumberText
  | .plain => { negative := i.negative, whole := i.whole }
  | .point => { negative := i.negative, whole := i.whole, fraction := ['0'] }
  | .exponent => { negative := i.negative, whole := i.whole, exponent := some (false, ['0']) }

section

variable (i : IntegerText) (form : IntegerForm)

theorem wellFormed_parts : (i.parts form).WellFormed := by
  have hzero : IsDigits ['0'] := .of_all nofun rfl
  cases form with
  | plain => exact ⟨i.isDigits, i.noLeadingZero, nofun, nofun⟩
  | point => exact ⟨i.isDigits, i.noLeadingZero, hzero.2, nofun⟩
  | exponent =>
    refine ⟨i.isDigits, i.noLeadingZero, nofun, ?_⟩
    rintro e he
    cases he
    exact hzero

def spelling : NumberSpelling := .ofText (i.parts form) false (i.wellFormed_parts form)

theorem text_spelling : (Spelling.number (i.spelling form)).text = i.text ++ form.ending := by
  apply String.toList_injective
  rw [Spelling.text, Spelling.write, NumberSpelling.write, text, String.toList_append, String.toList_ofList,
    String.toList_ofList, List.append_assoc]
  cases form with
  | plain => rfl
  | point => rfl
  | exponent => rfl

theorem digits_parts : (i.parts form).digits = i.whole.dropWhile (· == '0') := by
  have hwhole : (i.parts form).whole = i.whole := by cases form <;> rfl
  have hplaces : (i.parts form).places = [] := by cases form <;> rfl
  rw [NumberText.digits, hwhole, hplaces, List.append_nil]

/-- No form changes the value. -/
theorem exact_parts : (i.parts form).exact = i.magnitude := by
  have hpower : (i.parts form).power - (i.parts form).places.length = 0 := by cases form <;> rfl
  rw [NumberText.exact_eq_digits, digits_parts, hpower, ofDigitChars_dropWhile, zpow_zero, mul_one, magnitude]

theorem negative_parts : (i.parts form).negative = i.negative := by
  cases form <;> rfl

variable {i} {x : Double} (hx : Double.RoundsTo i.negative i.magnitude x)
include hx

theorem roundsTo_parts : Double.RoundsTo (i.parts form).negative (i.parts form).exact x := by
  rw [negative_parts, exact_parts]
  exact hx

/-- An integer that is not too large has few enough digits to be rounded as it is. -/
theorem double_parts (hfinite : x.isFinite = true) : (i.parts form).double = x := by
  apply NumberText.double_eq_of_roundsTo _ (roundsTo_parts form hx)
  rw [digits_parts]
  apply length_dropWhile_le i.isDigits.2
  exact Double.lt_ten_pow_of_lt_overflow (by decide) (hx.isFinite_iff.mp hfinite)

end

end IntegerText

/-- An integer is the binary64 number nearest to it in each of its forms, with its sign, wherever it stands; or it is
too large in each of them. -/
theorem NumberSite.integer_forms (site : NumberSite) (i : IntegerText) :
    ∃ x : Double, Double.RoundsTo i.negative i.magnitude x ∧ ∀ form : IntegerForm,
      (Spelling.number (i.spelling form)).text = i.text ++ form.ending ∧
        site.load (.number (i.spelling form)) = if x.isFinite then .ok (site.tree x) else .error .malformed := by
  obtain ⟨x, hx⟩ := (i.parts .plain).exists_roundsTo
  rw [i.negative_parts, i.exact_parts] at hx
  refine ⟨x, hx, fun form => ⟨i.text_spelling form, ?_⟩⟩
  have hfinite : (i.parts form).double.isFinite = true ↔ x.isFinite = true :=
    NumberText.isFinite_double_iff (i.wellFormed_parts form) (IntegerText.roundsTo_parts form hx)
  have hload : site.load (.number (i.spelling form)) =
      if (i.parts form).double.isFinite then .ok (site.tree (i.parts form).double) else .error .malformed :=
    site.load_number (i.spelling form)
  rw [hload]
  -- Where the integer is too large its digits may be cut off, but then no form is read at all.
  by_cases h : x.isFinite = true
  · rw [if_pos h, if_pos (hfinite.mpr h), IntegerText.double_parts form hx h]
  · rw [if_neg h, if_neg (fun hform => h (hfinite.mp hform))]

/-- Zero with a sign. -/
def negativeZero : IntegerText where
  negative := true
  whole := ['0']
  isDigits := .of_all nofun rfl
  noLeadingZero := nofun

/-- Zero keeps its sign in each form, in a record, in a node and in a statement. -/
theorem integer_forms_of_negativeZero :
    NumberSite.record.text (.number (negativeZero.spelling .point)) = "\x7b\"value\":-0.0\x7d" ∧
    ∀ form : IntegerForm,
      NumberSite.record.load (.number (negativeZero.spelling form)) = .ok (.number ⟨true, 0, by decide⟩) ∧
      NumberSite.node.load (.number (negativeZero.spelling form)) = .ok (.number ⟨true, 0, by decide⟩) ∧
      NumberSite.statement.load (.number (negativeZero.spelling form)) =
        .ok (.program [.number ⟨true, 0, by decide⟩]) := by
  have hzero : Double.RoundsTo true ((0 : ℕ) : ℚ) ⟨true, 0, by decide⟩ := by
    have hrounds := Decimal.roundsTo_toDouble true ⟨0, 0⟩
    rwa [Decimal.value, zpow_zero, mul_one] at hrounds
  have hload : ∀ (site : NumberSite) (form : IntegerForm),
      site.load (.number (negativeZero.spelling form)) = .ok (site.tree ⟨true, 0, by decide⟩) := by
    intro site form
    obtain ⟨x, hx, hforms⟩ := site.integer_forms negativeZero
    obtain rfl := hx.unique hzero
    exact (hforms form).2
  exact ⟨by decide +kernel, fun form => ⟨hload .record form, hload .node form, hload .statement form⟩⟩

end SyntaxTree
