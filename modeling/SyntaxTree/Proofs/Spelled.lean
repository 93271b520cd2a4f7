import SyntaxTree.Proofs.PlaceSpelling

/-!
What the readers take is spelled. Where a reader succeeds, the characters it took are blanks and a spelling,
and what it gives is the meaning of that spelling. So a fact about all texts that load is a fact about
spellings.
-/

namespace SyntaxTree.Json

/-! ### Blanks -/

def leadingBlanks (cs : List Char) : Blanks where
  chars := cs.takeWhile isBlank
  isBlank_of_mem := List.all_eq_true.mp List.all_takeWhile

theorem leadingBlanks_append_skipBlanks (cs : List Char) : (leadingBlanks cs).chars ++ skipBlanks cs = cs :=
  List.takeWhile_append_dropWhile

/-! ### Numbers -/

theorem readDigits_eq_ok {unfinished : Fault} {cs digits rest : List Char}
    (h : readDigits unfinished cs = .ok (digits, rest)) : cs = digits ++ rest ∧ IsDigits digits := by
  cases cs with
  | nil => cases h
  | cons c cs =>
    rw [readDigits] at h
    split at h
    · rename_i hc
      cases h
      refine ⟨List.takeWhile_append_dropWhile.symm, ?_, ?_⟩
      · rw [List.takeWhile_cons_of_pos hc]
        exact List.cons_ne_nil _ _
      · intro d hd
        exact List.all_eq_true.mp List.all_takeWhile d hd
    · cases h

theorem readWhole_eq_ok {unfinished : Fault} {cs whole rest : List Char}
    (h : readWhole unfinished cs = .ok (whole, rest)) :
    cs = whole ++ rest ∧ IsDigits whole ∧ ∀ c ds, whole ≠ '0' :: c :: ds := by
  unfold readWhole at h
  obtain ⟨⟨digits, tail⟩, hdigits, h⟩ := bind_eq_ok.mp h
  obtain ⟨hcs, hall⟩ := readDigits_eq_ok hdigits
  dsimp only at h
  split at h
  · cases h
  · rename_i hzero
    cases h
    exact ⟨hcs, hall, fun c ds hwhole => hzero c ds hwhole⟩

theorem readFraction_eq_ok {unfinished : Fault} {cs fraction rest : List Char}
    (h : readFraction unfinished cs = .ok (fraction, rest)) :
    cs = NumberSpelling.writeFraction fraction rest ∧ ∀ c ∈ fraction, c.isDigit = true := by
  cases cs with
  | nil =>
    cases h
    exact ⟨rfl, by simp⟩
  | cons c cs =>
    rw [readFraction] at h
    split at h
    · rename_i hpoint
      obtain ⟨hcs, hne, hall⟩ := readDigits_eq_ok h
      refine ⟨?_, hall⟩
      rw [NumberSpelling.writeFraction, if_neg hne, hpoint, hcs]
    · cases h
      exact ⟨rfl, by simp⟩

/-- The text of an exponent is one of the ways to write it. -/
theorem readExponent_eq_ok {unfinished : Fault} {cs rest : List Char} {exponent : Option (Bool × List Char)}
    (h : readExponent unfinished cs = .ok (exponent, rest)) :
    (∀ e ∈ exponent, IsDigits e.2) ∧ ∃ mark plus, (mark = 'e' ∨ mark = 'E') ∧
      ∀ n : NumberSpelling, n.parts.exponent = exponent → n.mark = mark → n.plus = plus →
        cs = n.writeExponent rest := by
  have hnone : ∀ ds : List Char, (∀ e ∈ (none : Option (Bool × List Char)), IsDigits e.2) ∧
      ∃ mark plus, (mark = 'e' ∨ mark = 'E') ∧ ∀ n : NumberSpelling, n.parts.exponent = none →
        n.mark = mark → n.plus = plus → ds = n.writeExponent ds := by
    intro ds
    refine ⟨by simp, 'e', false, .inl rfl, fun n hn _ _ => ?_⟩
    rw [NumberSpelling.writeExponent, hn]
  cases cs with
  | nil =>
    cases h
    exact hnone []
  | cons c cs =>
    rw [readExponent] at h
    split at h
    · rename_i hmark
      dsimp only at h
      obtain ⟨⟨digits, tail⟩, hdigits, h⟩ := bind_eq_ok.mp h
      obtain ⟨hcs, hall⟩ := readDigits_eq_ok hdigits
      cases h
      refine ⟨fun e he => by cases he; exact hall, ?_⟩
      cases cs with
      | nil => simp [readExponentSign, readDigits] at hdigits
      | cons d cs =>
        by_cases hminus : d = '-'
        · have hsign : readExponentSign (d :: cs) = (true, cs) := by rw [readExponentSign, if_pos hminus]
          rw [hsign] at hcs ⊢
          refine ⟨c, false, hmark, fun n hn hc _ => ?_⟩
          rw [NumberSpelling.writeExponent, hn, hc, hminus]
          exact congrArg (c :: '-' :: ·) hcs
        · by_cases hplus : d = '+'
          · have hsign : readExponentSign (d :: cs) = (false, cs) := by
              rw [readExponentSign, if_neg hminus, if_pos hplus]
            rw [hsign] at hcs ⊢
            refine ⟨c, true, hmark, fun n hn hc hp => ?_⟩
            rw [NumberSpelling.writeExponent, hn, hc, hp, hplus]
            exact congrArg (c :: '+' :: ·) hcs
          · have hsign : readExponentSign (d :: cs) = (false, d :: cs) := by
              rw [readExponentSign, if_neg hminus, if_neg hplus]
            rw [hsign] at hcs ⊢
            refine ⟨c, false, hmark, fun n hn hc hp => ?_⟩
            rw [NumberSpelling.writeExponent, hn, hc, hp]
            exact congrArg (c :: ·) hcs
    · cases h
      exact hnone (c :: cs)

theorem readNumberText_eq_ok {unfinished : Fault} {negative : Bool} {cs rest : List Char} {parts : NumberText}
    (h : readNumberText unfinished negative cs = .ok (parts, rest)) :
    parts.negative = negative ∧ ∃ n : NumberSpelling, n.parts = parts ∧ cs = n.writeUnsigned rest := by
  unfold readNumberText at h
  obtain ⟨⟨whole, cs₁⟩, hwhole, h⟩ := bind_eq_ok.mp h
  obtain ⟨⟨fraction, cs₂⟩, hfraction, h⟩ := bind_eq_ok.mp h
  obtain ⟨⟨exponent, cs₃⟩, hexponent, h⟩ := bind_eq_ok.mp h
  cases h
  obtain ⟨hcs, hdigits, hzero⟩ := readWhole_eq_ok hwhole
  obtain ⟨hcs₁, hplaces⟩ := readFraction_eq_ok hfraction
  obtain ⟨hpower, mark, plus, hmark, hcs₂⟩ := readExponent_eq_ok hexponent
  let n : NumberSpelling :=
    { parts := ⟨negative, whole, fraction, exponent⟩, mark, plus
      wellFormed := ⟨hdigits, hzero, hplaces, hpower⟩, mark_eq := hmark }
  refine ⟨rfl, n, rfl, ?_⟩
  rw [NumberSpelling.writeUnsigned, ← hcs₂ n rfl rfl rfl, ← hcs₁, hcs]

/-! ### Strings -/

theorem codeUnit_eq_ok {cs : List Char} {unit : Nat} (h : codeUnit cs = .ok unit) :
    ∃ a b c d rest, cs = a :: b :: c :: d :: rest ∧ codeUnit [a, b, c, d] = .ok unit := by
  rcases cs with _ | ⟨a, _ | ⟨b, _ | ⟨c, _ | ⟨d, rest⟩⟩⟩⟩
  · cases h
  · rw [codeUnit] at h
    · split at h <;> cases h
    · simp
  · rw [codeUnit] at h
    · split at h <;> cases h
    · simp
  · rw [codeUnit] at h
    · split at h <;> cases h
    · simp
  · exact ⟨a, b, c, d, rest, rfl, h⟩

/-- The characters that an escape takes are those of spelled characters. -/
def SpelledEscape (escape : Escape) : Prop :=
  ∀ cs e taken, escape cs = .ok (e, taken) →
    ∃ spelled : List CharSpelling, '\\' :: cs = spelled.flatMap CharSpelling.chars ++ cs.drop taken

theorem spelledEscape_of_byNumber {byNumber : Escape}
    (h : ∀ cs e taken, byNumber cs = .ok (e, taken) → ∃ spelled : List CharSpelling,
      '\\' :: 'u' :: cs = spelled.flatMap CharSpelling.chars ++ ('u' :: cs).drop taken) :
    SpelledEscape (escapeWith byNumber) := by
  intro cs e taken hescape
  cases cs with
  | nil => cases hescape
  | cons c cs =>
    rw [escapeWith] at hescape
    split at hescape
    · rename_i hc
      rw [hc]
      exact h cs e taken hescape
    · split at hescape
      · rename_i l hl
        cases hescape
        exact ⟨[.letter c e hl], rfl⟩
      · cases hescape

theorem lowSurrogate_eq_ok {cs : List Char} {low : Nat} (h : lowSurrogate cs = .ok low) :
    ∃ rest, cs = '\\' :: 'u' :: rest ∧ codeUnit rest = .ok low := by
  rcases cs with _ | ⟨c, _ | ⟨u, rest⟩⟩
  · cases h
  · rw [lowSurrogate] at h
    split at h <;> cases h
  · rw [lowSurrogate] at h
    split at h
    · rename_i hc
      split at h
      · rename_i hu
        obtain ⟨unit, hunit, h⟩ := bind_eq_ok.mp h
        split at h
        · cases h
          exact ⟨rest, by rw [hc, hu], hunit⟩
        · cases h
      · cases h
    · cases h

theorem spelledEscape_full : SpelledEscape (escapeWith Rules.full.byNumber) := by
  apply spelledEscape_of_byNumber
  intro cs e taken h
  have hescape : numberEscape cs = .ok (e, taken) := h
  rw [numberEscape] at hescape
  obtain ⟨unit, hunit, hescape⟩ := bind_eq_ok.mp hescape
  obtain ⟨a, b, c, d, tail, rfl, hunit⟩ := codeUnit_eq_ok hunit
  split at hescape
  · cases hescape
  · split at hescape
    · obtain ⟨low, hlow, hescape⟩ := bind_eq_ok.mp hescape
      obtain ⟨rest, hrest, hlow⟩ := lowSurrogate_eq_ok hlow
      obtain ⟨a', b', c', d', rest, rfl, hlow⟩ := codeUnit_eq_ok hlow
      have htail : tail = '\\' :: 'u' :: a' :: b' :: c' :: d' :: rest := hrest
      obtain ⟨-, rfl⟩ : _ ∧ 11 = taken := by simpa only [Except.ok.injEq, Prod.mk.injEq] using hescape
      rw [htail]
      exact ⟨[.unit a b c d unit hunit, .unit a' b' c' d' low hlow], rfl⟩
    · obtain ⟨-, rfl⟩ : _ ∧ 5 = taken := by simpa only [Except.ok.injEq, Prod.mk.injEq] using hescape
      exact ⟨[.unit a b c d unit hunit], rfl⟩

theorem spelledEscape_grammar : SpelledEscape (escapeWith Rules.grammar.byNumber) := by
  apply spelledEscape_of_byNumber
  intro cs e taken h
  have hescape : digitsEscape cs = .ok (e, taken) := h
  rw [digitsEscape] at hescape
  obtain ⟨unit, hunit, htaken⟩ := bind_eq_ok.mp hescape
  obtain ⟨a, b, c, d, tail, rfl, hunit⟩ := codeUnit_eq_ok hunit
  obtain ⟨-, rfl⟩ : _ ∧ 5 = taken := by simpa only [Except.ok.injEq, Prod.mk.injEq] using htaken
  exact ⟨[.unit a b c d unit hunit], rfl⟩

theorem readStringChars_eq_ok {escape : Escape} (hescape : SpelledEscape escape) {taken : Nat}
    {read cs text rest : List Char} (h : readStringChars escape taken read cs = .ok (text, rest)) :
    ∃ spelled : List CharSpelling, cs.drop taken = spelled.flatMap CharSpelling.chars ++ '"' :: rest := by
  induction cs generalizing taken read with
  | nil =>
    rw [readStringChars] at h
    cases h
  | cons c cs ih =>
    cases taken with
    | succ taken =>
      rw [readStringChars] at h
      exact ih h
    | zero =>
      rw [readStringChars] at h
      split at h
      · rename_i hquote
        cases h
        exact ⟨[], by rw [hquote]; rfl⟩
      · rename_i hquote
        split at h
        · rename_i hbackslash
          split at h
          · cases h
          · rename_i e taken hread
            obtain ⟨head, hhead⟩ := hescape cs e taken hread
            obtain ⟨tail, htail⟩ := ih h
            refine ⟨head ++ tail, ?_⟩
            rw [List.flatMap_append, List.append_assoc, ← htail, ← hhead, hbackslash, List.drop_zero]
        · rename_i hbackslash
          split at h
          · cases h
          · rename_i hcontrol
            obtain ⟨tail, htail⟩ := ih h
            rw [List.drop_zero] at htail
            refine ⟨.raw c ⟨hquote, hbackslash, by omega⟩ :: tail, ?_⟩
            rw [List.drop_zero, htail]
            rfl

theorem readString_eq_ok {rules : Rules} (hescape : SpelledEscape (escapeWith rules.byNumber))
    {cs rest : List Char} {text : String} (h : readString rules cs = .ok (text, rest)) :
    ∃ s : StringSpelling, cs = s.writeOpened rest := by
  obtain ⟨⟨read, rest'⟩, hread, h⟩ := bind_eq_ok.mp h
  cases h
  obtain ⟨spelled, hspelled⟩ := readStringChars_eq_ok hescape hread
  exact ⟨⟨spelled⟩, hspelled⟩

theorem readString_full_eq_ok {cs rest : List Char} {text : String}
    (h : readString .full cs = .ok (text, rest)) :
    ∃ s : StringSpelling, cs = s.writeOpened rest ∧ s.meaning = .ok text := by
  obtain ⟨s, rfl⟩ := readString_eq_ok spelledEscape_full h
  rw [readString_write] at h
  obtain ⟨text', hmeaning, h⟩ := bind_eq_ok.mp h
  cases h
  exact ⟨s, rfl, hmeaning⟩

/-! ### Tokens -/

/-- The characters of a token that is read under some rules. -/
def SpelledToken (rules : Rules) (cs rest : List Char) : Token → Prop
  | .scalar v =>
    ∃ s : Spelling, s.isScalar = true ∧ cs = s.write rest ∧ (rules = .full → s.meaning 0 = .ok v)
  | .openArray => cs = '[' :: rest
  | .openObject => cs = '{' :: rest

theorem readLiteral_eq_ok {word cs rest : List Char} (h : readLiteral word cs = .ok rest) : cs = word ++ rest := by
  induction word generalizing cs with
  | nil =>
    cases h
    rfl
  | cons c word ih =>
    cases cs with
    | nil => cases h
    | cons d cs =>
      rw [readLiteral] at h
      split at h
      · rename_i hd
        rw [hd, ih h]
        rfl
      · cases h

theorem readWord_eq_ok {word cs rest : List Char} {v : Value} {token : Token}
    (h : readWord word v cs = .ok (token, rest)) : token = .scalar v ∧ cs = word ++ rest := by
  obtain ⟨cs', hread, h⟩ := bind_eq_ok.mp h
  cases h
  exact ⟨rfl, readLiteral_eq_ok hread⟩

theorem readNumber_eq_ok {rules : Rules} {negative : Bool} {cs rest : List Char} {token : Token}
    (h : readNumber rules negative cs = .ok (token, rest)) :
    SpelledToken rules (Double.signChars negative ++ cs) rest token := by
  obtain ⟨⟨parts, tail⟩, hparts, h⟩ := bind_eq_ok.mp h
  obtain ⟨v, hv, h⟩ := bind_eq_ok.mp h
  cases h
  obtain ⟨hsign, n, rfl, hcs⟩ := readNumberText_eq_ok hparts
  refine ⟨.number n, rfl, ?_, ?_⟩
  · rw [Spelling.write, NumberSpelling.write, hsign, hcs]
  · rintro rfl
    exact hv

theorem readToken_eq_ok {rules : Rules} (hescape : SpelledEscape (escapeWith rules.byNumber))
    {cs rest : List Char} {token : Token} (h : readToken rules cs = .ok (token, rest)) :
    SpelledToken rules (skipBlanks cs) rest token := by
  unfold readToken at h
  cases hskip : skipBlanks cs with
  | nil =>
    rw [hskip] at h
    cases h
  | cons c tail =>
    rw [hskip] at h
    dsimp only at h
    split at h
    · rename_i hquote
      obtain ⟨⟨text, rest'⟩, hread, h⟩ := bind_eq_ok.mp h
      cases h
      obtain ⟨s, rfl⟩ := readString_eq_ok hescape hread
      refine ⟨.string s, rfl, by rw [hquote]; rfl, ?_⟩
      rintro rfl
      rw [readString_write] at hread
      obtain ⟨text', hmeaning, hread⟩ := bind_eq_ok.mp hread
      cases hread
      rw [Spelling.meaning, hmeaning]
      rfl
    · split at h
      · rename_i hopen
        cases h
        rw [hopen]
        rfl
      · split at h
        · rename_i hopen
          cases h
          rw [hopen]
          rfl
        · split at h
          · rename_i hminus
            rw [hminus]
            exact readNumber_eq_ok h
          · split at h
            · exact readNumber_eq_ok h
            · split at h
              · rename_i hn
                obtain ⟨rfl, rfl⟩ := readWord_eq_ok h
                exact ⟨.null, rfl, by rw [hn]; rfl, fun _ => rfl⟩
              · split at h
                · rename_i ht
                  obtain ⟨rfl, rfl⟩ := readWord_eq_ok h
                  exact ⟨.bool true, rfl, by rw [ht]; rfl, fun _ => rfl⟩
                · split at h
                  · rename_i hf
                    obtain ⟨rfl, rfl⟩ := readWord_eq_ok h
                    exact ⟨.bool false, rfl, by rw [hf]; rfl, fun _ => rfl⟩
                  · cases h

end SyntaxTree.Json
