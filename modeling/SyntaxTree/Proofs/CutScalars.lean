import SyntaxTree.Proofs.Magnitude

/-!
Scalars that are cut off. A word or a string of which characters are missing at the end ends too early for its
reader, wherever it is cut, also inside an escape. A number may be cut to one that is shorter and complete; this one
is not too large either, if the number has few digits before its point and in its exponent.
-/

namespace SyntaxTree.Json

/-! ### Cuts -/

/-- The first text is the second one without one or more characters at its end. -/
inductive Cut : List Char → List Char → Prop where
  | before (c : Char) (text : List Char) : Cut [] (c :: text)
  | after (c : Char) {beginning text : List Char} (h : Cut beginning text) : Cut (c :: beginning) (c :: text)

theorem cut_append_of_ne_nil (beginning : List Char) {missing : List Char} (h : missing ≠ []) :
    Cut beginning (beginning ++ missing) := by
  induction beginning with
  | nil =>
    cases missing with
    | nil => exact absurd rfl h
    | cons c missing => exact .before c missing
  | cons c beginning ih => exact .after c ih

/-- A text of two parts is cut in the first or in the second one. -/
theorem cut_append {beginning text text' : List Char} (h : Cut beginning (text ++ text')) :
    Cut beginning text ∨ ∃ beginning', beginning = text ++ beginning' ∧ Cut beginning' text' := by
  induction text generalizing beginning with
  | nil => exact .inr ⟨beginning, rfl, h⟩
  | cons c text ih =>
    cases h with
    | before => exact .inl (.before c text)
    | after _ h =>
      rcases ih h with hfirst | ⟨beginning', rfl, hsecond⟩
      · exact .inl (.after c hfirst)
      · exact .inr ⟨beginning', rfl, hsecond⟩

theorem Cut.length_lt {beginning text : List Char} (h : Cut beginning text) : beginning.length < text.length := by
  induction h with
  | before c text => exact Nat.zero_lt_succ _
  | after c h ih => exact Nat.succ_lt_succ ih

theorem Cut.mem {beginning text : List Char} (h : Cut beginning text) {c : Char} (hc : c ∈ beginning) : c ∈ text := by
  induction h with
  | before d text => cases hc
  | after d h ih =>
    rcases List.mem_cons.mp hc with rfl | hc
    · exact List.mem_cons_self
    · exact List.mem_cons_of_mem _ (ih hc)

theorem readLiteral_cut {beginning text : List Char} (h : Cut beginning text) :
    readLiteral text beginning = .error .endOfText := by
  induction h with
  | before c text => rfl
  | after c h ih => rw [readLiteral, if_pos rfl, ih]

/-! ### Strings -/

theorem utf8Size_of_hexDigit? {c : Char} {digit : Nat} (h : hexDigit? c = some digit) : c.utf8Size = 1 := by
  rw [Char.utf8Size_eq_one_iff]
  simp only [hexDigit?, Char.isDigit, Bool.and_eq_true, decide_eq_true_eq, Char.le_def, UInt32.le_iff_toNat_le,
    ge_iff_le] at h ⊢
  split at h
  · rename_i hdigit
    exact hdigit.2.trans (by decide)
  · split at h
    · rename_i hletter
      exact hletter.2.trans (by decide)
    · split at h
      · rename_i hletter
        exact hletter.2.trans (by decide)
      · cases h

/-- Less than four hexadecimal digits are not enough. -/
theorem codeUnit_cut {a b c d : Char} {unit : Nat} (h : codeUnit [a, b, c, d] = .ok unit) {beginning : List Char}
    (hcut : Cut beginning [a, b, c, d]) : codeUnit beginning = .error .endOfText := by
  obtain ⟨ha, hb, hc⟩ : a.utf8Size = 1 ∧ b.utf8Size = 1 ∧ c.utf8Size = 1 := by
    rw [codeUnit] at h
    split at h
    · rename_i ha hb hc hd
      exact ⟨utf8Size_of_hexDigit? ha, utf8Size_of_hexDigit? hb, utf8Size_of_hexDigit? hc⟩
    · cases h
  cases hcut with
  | before => rfl
  | after _ hcut =>
    cases hcut with
    | before => simp [codeUnit, byteLength, ha]
    | after _ hcut =>
      cases hcut with
      | before => simp [codeUnit, byteLength, ha, hb]
      | after _ hcut =>
        cases hcut with
        | before => simp [codeUnit, byteLength, ha, hb, hc]
        | after _ hcut => cases hcut

/-- A string that ends inside a character ends too early. -/
theorem readStringChars_cut_char (s : CharSpelling) {beginning : List Char} (hcut : Cut beginning s.chars)
    (read : List Char) : readStringChars (escapeWith numberEscape) 0 read beginning = .error .endOfText := by
  cases s with
  | raw c hraw =>
    cases hcut with
    | before => rfl
    | after _ hcut => cases hcut
  | letter l c hl =>
    cases hcut with
    | before => rfl
    | after _ hcut =>
      cases hcut with
      | before => exact readStringChars_fault rfl
      | after _ hcut => cases hcut
  | unit a b c d unit hunit =>
    cases hcut with
    | before => rfl
    | after _ hcut =>
      apply readStringChars_fault
      cases hcut with
      | before => rfl
      | after _ hcut =>
        rw [escapeWith, if_pos rfl, numberEscape, codeUnit_cut hunit hcut]
        rfl

/-- A character that does not need another one to be understood is read as what it stands for. -/
theorem readStringChars_char {s : CharSpelling} {c : Char} (h : CharSpelling.decode [s] = .ok [c])
    (read cs : List Char) :
    readStringChars (escapeWith numberEscape) 0 read (s.chars ++ cs) =
      readStringChars (escapeWith numberEscape) 0 (c :: read) cs := by
  cases s with
  | raw d hraw =>
    cases h
    rw [CharSpelling.chars, List.cons_append, List.nil_append, readStringChars, if_neg hraw.1, if_neg hraw.2.1,
      if_neg (Nat.not_lt.mpr hraw.2.2)]
  | letter l d hl =>
    cases h
    have hescape : escapeWith numberEscape (l :: cs) = .ok (c, 1) := by
      rw [escapeWith, if_neg (ne_u_of_letterEscape? hl), hl]
    exact readStringChars_escape hescape
  | unit a b c' d unit hunit =>
    rw [CharSpelling.decode.eq_def] at h
    have hescape := escapeWith_unit hunit cs
    dsimp only at h
    split at h
    · cases h
    · rename_i hlow
      split at h
      · cases h
      · rename_i hhigh
        cases h
        rw [if_neg hlow, if_neg hhigh] at hescape
        exact readStringChars_escape hescape

/-- A string without its closing quote, or with less, ends too early. -/
theorem readString_cut (text : String) {beginning : List Char}
    (hcut : Cut beginning ((spelledString text).writeOpened [])) :
    readString .full beginning = .error .endOfText := by
  have hchars : ∀ (cs read beginning : List Char),
      Cut beginning ((cs.map spelledChar).flatMap CharSpelling.chars ++ ['"']) →
      readStringChars (escapeWith numberEscape) 0 read beginning = .error .endOfText := by
    intro cs
    induction cs with
    | nil =>
      intro read beginning hcut
      cases hcut with
      | before => rfl
      | after _ hcut => cases hcut
    | cons c cs ih =>
      intro read beginning hcut
      rw [List.map_cons, List.flatMap_cons, List.append_assoc] at hcut
      rcases cut_append hcut with hfirst | ⟨beginning, rfl, hrest⟩
      · exact readStringChars_cut_char _ hfirst read
      · rw [readStringChars_char ((spelledChar_spec c).2 [])]
        exact ih _ _ hrest
  have hread : readStringChars (escapeWith Rules.full.byNumber) 0 [] beginning = .error .endOfText :=
    hchars text.toList [] beginning hcut
  rw [readString, hread]
  rfl

/-! ### Numbers -/

namespace NumberSpelling

/-- Few digits stand before the point, and few in the exponent unless it is negative. -/
structure IsModest (n : NumberSpelling) : Prop where
  whole_le : n.parts.whole.length ≤ 20
  exponent_le : ∀ digits, n.parts.exponent = some (false, digits) → digits.length ≤ 3

/-- The same number with another exponent. -/
def withExponent (n : NumberSpelling) (exponent : Option (Bool × List Char)) (h : ∀ e ∈ exponent, IsDigits e.2) :
    NumberSpelling where
  parts := { n.parts with exponent }
  mark := n.mark
  plus := n.plus
  wellFormed := ⟨n.wellFormed.whole, n.wellFormed.noLeadingZero, n.wellFormed.fraction, h⟩
  mark_eq := n.mark_eq

end NumberSpelling

theorem IsDigits.cut {digits beginning : List Char} (h : IsDigits digits) (hcut : Cut beginning digits)
    (hne : beginning ≠ []) : IsDigits beginning :=
  ⟨hne, fun c hc => h.2 c (hcut.mem hc)⟩

/-- Digits that are cut off have no more zeros in front than before. -/
theorem Cut.noLeadingZero {whole beginning : List Char} (hcut : Cut beginning whole)
    (h : ∀ c cs, whole ≠ '0' :: c :: cs) : ∀ c cs, beginning ≠ '0' :: c :: cs := by
  rintro c cs rfl
  cases hcut with
  | after _ hcut =>
    cases hcut with
    | after _ hcut => exact h c _ rfl

/-- A point and the digits after it are cut in front of the point or inside the digits, behind the point, or not
before what follows them. -/
theorem cut_writeFraction {fraction rest beginning : List Char}
    (hcut : Cut beginning (NumberSpelling.writeFraction fraction rest)) :
    (∃ fraction', (∀ c ∈ fraction', c ∈ fraction) ∧ beginning = NumberSpelling.writeFraction fraction' []) ∨
    beginning = ['.'] ∨
    ∃ beginning', beginning = NumberSpelling.writeFraction fraction beginning' ∧ Cut beginning' rest := by
  unfold NumberSpelling.writeFraction at hcut
  split at hcut
  · rename_i hnil
    exact .inr (.inr ⟨beginning, (if_pos hnil).symm, hcut⟩)
  · rename_i hne
    cases hcut with
    | before => exact .inl ⟨[], List.forall_mem_nil _, rfl⟩
    | @after _ beginning _ hcut =>
      rcases cut_append hcut with hdigits | ⟨beginning', rfl, hrest⟩
      · by_cases hempty : beginning = []
        · subst hempty
          exact .inr (.inl rfl)
        · refine .inl ⟨beginning, fun c hc => hdigits.mem hc, ?_⟩
          rw [NumberSpelling.writeFraction, if_neg hempty, List.append_nil]
      · exact .inr (.inr ⟨beginning', (if_neg hne).symm, hrest⟩)

def NumberSpelling.exponentSign (n : NumberSpelling) (negative : Bool) : List Char :=
  if negative then ['-'] else if n.plus then ['+'] else []

theorem writeExponent_some {n : NumberSpelling} {negative : Bool} {digits : List Char}
    (h : n.parts.exponent = some (negative, digits)) :
    n.writeExponent [] = n.mark :: (n.exponentSign negative ++ digits) := by
  rw [NumberSpelling.writeExponent, h, NumberSpelling.exponentSign]
  cases negative <;> cases n.plus <;> simp

/-- The mark of an exponent and a sign need digits behind them. -/
theorem readExponent_cut_sign {n : NumberSpelling} (negative : Bool) {beginning : List Char}
    (h : beginning = [] ∨ beginning = n.exponentSign negative) :
    readExponent .endOfText (n.mark :: beginning) = .error .endOfText := by
  have hsign : beginning = [] ∨ beginning = ['-'] ∨ beginning = ['+'] := by
    rcases h with rfl | rfl
    · exact .inl rfl
    · unfold NumberSpelling.exponentSign
      cases negative <;> cases n.plus <;> simp
  rw [readExponent, if_pos n.mark_eq]
  rcases hsign with rfl | rfl | rfl <;> rfl

/-- An exponent of two digits, or one that is not positive, is at most 100. -/
theorem NumberText.power_le {n : NumberText} {negative : Bool} {digits : List Char}
    (h : n.exponent = some (negative, digits)) (hdigits : IsDigits digits)
    (hcount : negative = false → digits.length ≤ 2) : n.power ≤ 100 := by
  cases negative with
  | true =>
    simp only [NumberText.power, h]
    omega
  | false =>
    have hlt := ofDigitChars_lt hdigits.2
    have hpow : 10 ^ digits.length ≤ 10 ^ 2 := Nat.pow_le_pow_right (by decide) (hcount rfl)
    simp only [NumberText.power, h]
    omega

/-- An exponent that is cut off is none, has fewer digits, or lacks its digits. -/
theorem cut_writeExponent {n : NumberSpelling} (h : n.IsModest) {beginning : List Char}
    (hcut : Cut beginning (n.writeExponent [])) :
    (∃ exponent hdigits, beginning = (n.withExponent exponent hdigits).writeExponent [] ∧
      (n.withExponent exponent hdigits).parts.power ≤ 100) ∨
    readExponent .endOfText beginning = .error .endOfText ∧ ∃ tail, beginning = n.mark :: tail := by
  cases hexponent : n.parts.exponent with
  | none =>
    rw [NumberSpelling.writeExponent, hexponent] at hcut
    cases hcut
  | some exponent =>
    obtain ⟨negative, digits⟩ := exponent
    have hdigits : IsDigits digits := n.wellFormed.exponent _ hexponent
    rw [writeExponent_some hexponent] at hcut
    cases hcut with
    | before =>
      refine .inl ⟨none, by simp, rfl, ?_⟩
      show (0 : ℤ) ≤ 100
      decide
    | @after _ beginning _ hcut =>
      rcases cut_append hcut with hsign | ⟨digits', rfl, hfewer⟩
      · have hempty : beginning = [] := by
          unfold NumberSpelling.exponentSign at hsign
          split at hsign
          · exact List.length_eq_zero_iff.mp (Nat.lt_one_iff.mp hsign.length_lt)
          · split at hsign
            · exact List.length_eq_zero_iff.mp (Nat.lt_one_iff.mp hsign.length_lt)
            · cases hsign
        exact .inr ⟨readExponent_cut_sign negative (.inl hempty), beginning, rfl⟩
      by_cases hne : digits' = []
      · subst hne
        rw [List.append_nil]
        exact .inr ⟨readExponent_cut_sign negative (.inr rfl), _, rfl⟩
      · have hshorter : ∀ e ∈ some (negative, digits'), IsDigits e.2 := by
          rintro e ⟨⟩
          exact hdigits.cut hfewer hne
        have hwrite : (n.withExponent (some (negative, digits')) hshorter).writeExponent [] =
            n.mark :: (n.exponentSign negative ++ digits') := writeExponent_some rfl
        refine .inl ⟨some (negative, digits'), hshorter, hwrite.symm, ?_⟩
        apply NumberText.power_le rfl (hshorter _ rfl)
        rintro rfl
        show digits'.length ≤ 2
        have hcount := h.exponent_le digits hexponent
        have hlength := hfewer.length_lt
        omega

/-- Without an exponent a number of few digits before its point is finite, whatever digits follow the point. -/
theorem exists_plainNumber (negative : Bool) {whole fraction : List Char} (hcount : whole.length ≤ 20)
    (hwhole : IsDigits whole) (hzero : ∀ c cs, whole ≠ '0' :: c :: cs) (hfraction : ∀ c ∈ fraction, c.isDigit = true) :
    ∃ m : NumberSpelling, m.parts.negative = negative ∧
      whole ++ NumberSpelling.writeFraction fraction [] = m.writeUnsigned [] ∧ m.parts.double.isFinite = true := by
  have hwell : NumberText.WellFormed ⟨negative, whole, fraction, none⟩ := ⟨hwhole, hzero, hfraction, by simp⟩
  have hfinite : (NumberText.double ⟨negative, whole, fraction, none⟩).isFinite = true := by
    apply NumberText.isFinite_double hwell
    show (whole.length : ℤ) + 0 ≤ 250
    omega
  exact ⟨.ofText _ false hwell, rfl, rfl, hfinite⟩

/-- The fault of an exponent is the fault of its number. -/
theorem readNumberText_of_exponent {n : NumberSpelling} {tail : List Char}
    (h : readExponent .endOfText (n.mark :: tail) = .error .endOfText) :
    readNumberText .endOfText n.parts.negative
      (n.parts.whole ++ NumberSpelling.writeFraction n.parts.fraction (n.mark :: tail)) = .error .endOfText := by
  have hwell := n.wellFormed
  have hhead : ∀ c cs, n.mark :: tail = c :: cs → c.isDigit = false ∧ c ≠ '.' := by
    rintro c cs ⟨⟩
    exact mark_isDigit n
  have hnext : NoDigit (NumberSpelling.writeFraction n.parts.fraction (n.mark :: tail)) := by
    intro c cs hcs
    unfold NumberSpelling.writeFraction at hcs
    split at hcs
    · exact (hhead c cs hcs).1
    · cases hcs
      decide
  rw [readNumberText, readWhole_append _ hwell.whole hwell.noLeadingZero hnext, ok_bind]
  dsimp only
  rw [readFraction_append _ hwell.fraction hhead, ok_bind]
  dsimp only
  rw [h]
  rfl

/-- A number that is cut off lacks digits that must follow, or is again a number that is not too large. -/
theorem readNumberText_cut {n : NumberSpelling} (h : n.IsModest) {beginning : List Char}
    (hcut : Cut beginning (n.writeUnsigned [])) :
    readNumberText .endOfText n.parts.negative beginning = .error .endOfText ∨
    ∃ m : NumberSpelling, m.parts.negative = n.parts.negative ∧ beginning = m.writeUnsigned [] ∧
      m.parts.double.isFinite = true := by
  have hwell := n.wellFormed
  have hlength := h.whole_le
  rcases cut_append hcut with hwhole | ⟨beginning, rfl, hafter⟩
  · by_cases hne : beginning = []
    · subst hne
      exact .inl rfl
    · have hshort := hwhole.length_lt
      have hm := exists_plainNumber n.parts.negative (by omega) (hwell.whole.cut hwhole hne)
        (hwhole.noLeadingZero hwell.noLeadingZero) (List.forall_mem_nil _)
      rw [NumberSpelling.writeFraction, if_pos rfl, List.append_nil] at hm
      exact .inr hm
  rcases cut_writeFraction hafter with ⟨fraction, hfraction, rfl⟩ | rfl | ⟨beginning, rfl, hexponent⟩
  · exact .inr (exists_plainNumber _ hlength hwell.whole hwell.noLeadingZero
      fun c hc => hwell.fraction c (hfraction c hc))
  · left
    have hpoint : NoDigit ['.'] := by
      rintro c cs ⟨⟩
      decide
    rw [readNumberText, readWhole_append _ hwell.whole hwell.noLeadingZero hpoint]
    rfl
  rcases cut_writeExponent h hexponent with ⟨exponent, hdigits, rfl, hpower⟩ | ⟨hread, tail, rfl⟩
  · refine .inr ⟨n.withExponent exponent hdigits, rfl, rfl, ?_⟩
    apply NumberText.isFinite_double (n.withExponent exponent hdigits).wellFormed
    have hwhole : (n.withExponent exponent hdigits).parts.whole.length = n.parts.whole.length := rfl
    omega
  · exact .inl (readNumberText_of_exponent hread)

/-- A number that is cut off ends too early, or is again a number that is not too large. -/
theorem readToken_cut_number {n : NumberSpelling} (h : n.IsModest) {beginning : List Char}
    (hcut : Cut beginning (n.write [])) :
    readToken .full beginning = .error .endOfText ∨
    ∃ m : NumberSpelling, beginning = m.write [] ∧ m.parts.double.isFinite = true := by
  have hnumber : ∀ beginning, Cut beginning (n.writeUnsigned []) →
      readNumber .full n.parts.negative beginning = .error .endOfText ∨
      ∃ m : NumberSpelling, Double.signChars n.parts.negative ++ beginning = m.write [] ∧
        m.parts.double.isFinite = true := by
    intro beginning hcut
    rcases readNumberText_cut h hcut with hread | ⟨m, hnegative, rfl, hfinite⟩
    · left
      have hunfinished : readNumberText Rules.full.unfinished n.parts.negative beginning = .error .endOfText := hread
      rw [readNumber, hunfinished]
      rfl
    · exact .inr ⟨m, by rw [NumberSpelling.write, hnegative], hfinite⟩
  unfold NumberSpelling.write at hcut
  cases hnegative : n.parts.negative with
  | true =>
    rw [hnegative] at hcut hnumber
    cases hcut with
    | before => exact .inl rfl
    | @after _ beginning _ hcut =>
      rw [readToken_minus]
      exact hnumber beginning hcut
  | false =>
    rw [hnegative] at hcut hnumber
    obtain ⟨d, ds, hcons, hd⟩ := writeUnsigned_eq_cons n []
    rcases hnumber beginning hcut with hread | hm
    · left
      rw [Double.signChars, if_neg (by decide), List.nil_append, hcons] at hcut
      cases hcut with
      | before => rfl
      | after _ hcut => rwa [readToken_digit _ hd]
    · exact .inr hm

theorem readToken_cut_string (text : String) {beginning : List Char}
    (hcut : Cut beginning ((spelledString text).write [])) : readToken .full beginning = .error .endOfText := by
  cases hcut with
  | before => rfl
  | @after _ beginning _ hcut =>
    have hread := readString_cut text hcut
    show (readString .full beginning >>= _) = _
    rw [hread]
    rfl

/-! ### Numbers that are written -/

theorem isModest_spelledInteger {n : Int} (h : -0x8000000000000000 ≤ n ∧ n < 0x10000000000000000) :
    (spelledInteger n).IsModest where
  whole_le := (Nat.length_toDigits_le_iff (by decide) (by decide)).mpr (by omega)
  exponent_le := by
    intro digits hexponent
    cases hexponent

/-- The JSON layout of a finite number has few digits before its point and in its exponent. -/
theorem isModest_spelling {x : Double} (h : x.isFinite = true) : (x.spelling h).IsModest := by
  have hfinite : x.magnitude < Double.infiniteMagnitude := of_decide_eq_true h
  have hshort := Double.isShort_shortest .even h
  have hnearest := (Double.nearest_shortest .even hfinite).trans_lt hfinite
  have hparts : (x.spelling h).parts = Decimal.compactParts x.negative (Double.shortest .even x.magnitude) := rfl
  generalize Double.shortest .even x.magnitude = d at hshort hnearest hparts
  have hpos := d.length_digitChars_pos
  have hlead : d.leadingExponent = d.exponent + d.digitChars.length - 1 := rfl
  unfold Decimal.compactParts at hparts
  split at hparts
  · split at hparts
    · constructor
      · rw [hparts]
        simp only [Decimal.integerParts, List.length_append, List.length_replicate]
        omega
      · rw [hparts]
        rintro digits ⟨⟩
    · have hlength := d.length_padded
      constructor
      · rw [hparts]
        simp only [Decimal.pointParts, List.length_take, Decimal.placeCount] at hlength ⊢
        omega
      · rw [hparts]
        rintro digits ⟨⟩
  · constructor
    · rw [hparts]
      simp only [Decimal.scientificParts, List.length_take]
      omega
    · rw [hparts]
      intro digits hexponent
      simp only [Decimal.scientificParts, Option.some.injEq, Prod.mk.injEq, decide_eq_false_iff_not] at hexponent
      obtain ⟨hsign, rfl⟩ := hexponent
      have hbelow : d.leadingExponent < 400 := by
        by_cases hzero : d.digits = 0
        · have hexponent := hshort.nonzero.resolve_left (not_not.mpr hzero)
          have hchars : d.digitChars = ['0'] := by rw [Decimal.digitChars, hzero]; rfl
          rw [hlead, hexponent, hchars]
          decide
        · exact Decimal.leadingExponent_lt hzero hnearest
      exact (Nat.length_toDigits_le_iff (by decide) (by decide)).mpr (by omega)

end SyntaxTree.Json
