import SyntaxTree.Proofs.Spelling

/-!
Reading a spelled scalar. A reader takes exactly the characters of the spelling, whatever follows, and ends
as the spelling's meaning does. Only a number looks at what follows: a digit, a point or the mark of an
exponent would continue it.
-/

namespace SyntaxTree.Json

/-! ### Outcomes of readers -/

section

variable {α β : Type}

/-- The outcome of a reader that ends as `o` does and leaves `rest`. -/
def leaving (rest : List Char) (o : Except Fault α) : Except Fault (α × List Char) := do
  .ok (← o, rest)

@[simp] theorem ok_bind (a : α) (f : α → Except Fault β) : (Except.ok a >>= f) = f a := rfl

@[simp] theorem error_bind (fault : Fault) (f : α → Except Fault β) :
    (Except.error fault >>= f) = .error fault := rfl

@[simp] theorem leaving_ok (rest : List Char) (a : α) : leaving rest (.ok a) = .ok (a, rest) := rfl

@[simp] theorem leaving_error (rest : List Char) (fault : Fault) :
    leaving rest (.error fault : Except Fault α) = .error fault := rfl

theorem leaving_bind (rest : List Char) (o : Except Fault α) (f : α × List Char → Except Fault β) :
    (leaving rest o >>= f) = o >>= fun a => f (a, rest) := by
  cases o <;> rfl

theorem leaving_of_bind (rest : List Char) (o : Except Fault α) (f : α → Except Fault β) :
    leaving rest (o >>= f) = o >>= fun a => leaving rest (f a) := by
  cases o <;> rfl

/-- A composed outcome that is a success has a success at each of its parts. -/
theorem bind_eq_ok {o : Except Fault α} {f : α → Except Fault β} {b : β} :
    (o >>= f) = .ok b ↔ ∃ a, o = .ok a ∧ f a = .ok b := by
  cases o <;> simp

end

/-! ### Blanks -/

theorem skipBlanks_append (blanks : Blanks) (cs : List Char) :
    skipBlanks (blanks.chars ++ cs) = skipBlanks cs :=
  List.dropWhile_append_of_pos blanks.isBlank_of_mem

theorem skipBlanks_cons {c : Char} (h : isBlank c = false) (cs : List Char) :
    skipBlanks (c :: cs) = c :: cs := by
  rw [skipBlanks, List.dropWhile_cons_of_neg (by rw [h]; decide)]

/-! ### Numbers -/

def NoDigit (rest : List Char) : Prop := ∀ c cs, rest = c :: cs → c.isDigit = false

/-- What is next does not continue a number. -/
def Ends (rest : List Char) : Prop :=
  ∀ c cs, rest = c :: cs → c.isDigit = false ∧ c ≠ '.' ∧ c ≠ 'e' ∧ c ≠ 'E'

theorem Ends.noDigit {rest : List Char} (h : Ends rest) : NoDigit rest := fun c cs hrest => (h c cs hrest).1

theorem ends_nil : Ends [] := by
  intro c cs h
  cases h

theorem ends_cons {c : Char} (h : c.isDigit = false ∧ c ≠ '.' ∧ c ≠ 'e' ∧ c ≠ 'E') (cs : List Char) :
    Ends (c :: cs) := by
  rintro d ds ⟨⟩
  exact h

theorem not_isDigit_of_isBlank {c : Char} (h : isBlank c = true) :
    c.isDigit = false ∧ c ≠ '.' ∧ c ≠ 'e' ∧ c ≠ 'E' := by
  simp only [isBlank, Bool.or_eq_true, beq_iff_eq] at h
  rcases h with ((rfl | rfl) | rfl) | rfl <;> decide

theorem ends_blanks (blanks : Blanks) {rest : List Char} (h : Ends rest) : Ends (blanks.chars ++ rest) := by
  intro c cs hcs
  cases hblanks : blanks.chars with
  | nil =>
    rw [hblanks] at hcs
    exact h c cs hcs
  | cons d ds =>
    rw [hblanks] at hcs
    cases hcs
    exact not_isDigit_of_isBlank (blanks.isBlank_of_mem _ (by simp [hblanks]))

theorem readDigits_append {digits rest : List Char} (unfinished : Fault) (h : IsDigits digits)
    (hrest : NoDigit rest) : readDigits unfinished (digits ++ rest) = .ok (digits, rest) := by
  obtain ⟨hne, hdigits⟩ := h
  have htake : (digits ++ rest).takeWhile Char.isDigit = digits := by
    rw [List.takeWhile_append_of_pos hdigits]
    cases rest with
    | nil => simp
    | cons c cs => simp [hrest c cs rfl]
  have hdrop : (digits ++ rest).dropWhile Char.isDigit = rest := by
    rw [List.dropWhile_append_of_pos hdigits]
    cases rest with
    | nil => rfl
    | cons c cs => simp [hrest c cs rfl]
  cases digits with
  | nil => exact absurd rfl hne
  | cons d ds =>
    have hd : d.isDigit = true := hdigits d (by simp)
    simp only [List.cons_append] at htake hdrop ⊢
    rw [readDigits, if_pos hd, htake, hdrop]

/-- An exponent starts with its mark; without one, what follows comes next. -/
theorem head_writeExponent {n : NumberSpelling} {rest : List Char} {c : Char} {cs : List Char}
    (h : n.writeExponent rest = c :: cs) : c = n.mark ∨ rest = c :: cs := by
  simp only [NumberSpelling.writeExponent] at h
  split at h
  · exact .inr h
  · cases h
    exact .inl rfl
  · cases h
    exact .inl rfl

theorem mark_isDigit (n : NumberSpelling) : n.mark.isDigit = false ∧ n.mark ≠ '.' := by
  rcases n.mark_eq with h | h <;> rw [h] <;> decide

theorem noDigit_writeExponent (n : NumberSpelling) {rest : List Char} (h : Ends rest) :
    NoDigit (n.writeExponent rest) := by
  intro c cs hcs
  rcases head_writeExponent hcs with rfl | hrest
  · exact (mark_isDigit n).1
  · exact h.noDigit c cs hrest

theorem noDigit_writeFraction (n : NumberSpelling) {rest : List Char} (h : Ends rest) :
    NoDigit (NumberSpelling.writeFraction n.parts.fraction (n.writeExponent rest)) := by
  intro c cs hcs
  unfold NumberSpelling.writeFraction at hcs
  split at hcs
  · exact noDigit_writeExponent n h c cs hcs
  · cases hcs
    decide

theorem readExponentSign_digit {d : Char} (h : d.isDigit = true) (cs : List Char) :
    readExponentSign (d :: cs) = (false, d :: cs) := by
  have hminus : d ≠ '-' := by
    rintro rfl
    cases h
  have hplus : d ≠ '+' := by
    rintro rfl
    cases h
  simp only [readExponentSign, if_neg hminus, if_neg hplus]

theorem readExponent_write (n : NumberSpelling) (unfinished : Fault) {rest : List Char} (h : Ends rest) :
    readExponent unfinished (n.writeExponent rest) = .ok (n.parts.exponent, rest) := by
  have hmark : n.mark = 'e' ∨ n.mark = 'E' := n.mark_eq
  simp only [NumberSpelling.writeExponent]
  split
  · rename_i hnone
    rw [hnone]
    cases rest with
    | nil => rfl
    | cons c cs =>
      have hc := h c cs rfl
      rw [readExponent, if_neg (by simp [hc])]
  · rename_i digits hsome
    have hdigits : IsDigits digits := n.wellFormed.exponent (true, digits) hsome
    rw [readExponent, if_pos hmark]
    simp [readExponentSign, readDigits_append unfinished hdigits h.noDigit, hsome]
  · rename_i digits hsome
    have hdigits : IsDigits digits := n.wellFormed.exponent (false, digits) hsome
    have hread := readDigits_append unfinished hdigits h.noDigit
    rw [readExponent, if_pos hmark, hsome]
    cases n.plus with
    | true => simp [readExponentSign, hread]
    | false =>
      cases digits with
      | nil => exact absurd rfl hdigits.1
      | cons d ds =>
        have hd : d.isDigit = true := hdigits.2 d (by simp)
        simp only [List.cons_append, Bool.false_eq_true, if_false] at hread ⊢
        simp only [readExponentSign_digit hd, hread, ok_bind]

theorem readFraction_append {fraction rest : List Char} (unfinished : Fault) (h : ∀ c ∈ fraction, c.isDigit = true)
    (hrest : ∀ c cs, rest = c :: cs → c.isDigit = false ∧ c ≠ '.') :
    readFraction unfinished (NumberSpelling.writeFraction fraction rest) = .ok (fraction, rest) := by
  unfold NumberSpelling.writeFraction
  split
  · rename_i hnil
    rw [hnil]
    cases rest with
    | nil => rfl
    | cons c cs => rw [readFraction, if_neg (hrest c cs rfl).2]
  · rename_i hne
    rw [readFraction, if_pos rfl]
    exact readDigits_append unfinished ⟨hne, h⟩ fun c cs hcs => (hrest c cs hcs).1

theorem readWhole_append {whole rest : List Char} (unfinished : Fault) (h : IsDigits whole)
    (hzero : ∀ c cs, whole ≠ '0' :: c :: cs) (hrest : NoDigit rest) :
    readWhole unfinished (whole ++ rest) = .ok (whole, rest) := by
  rw [readWhole, readDigits_append unfinished h hrest, ok_bind]
  dsimp only
  split
  · rename_i c cs
    exact absurd rfl (hzero c cs)
  · rfl

theorem readFraction_write (n : NumberSpelling) (unfinished : Fault) {rest : List Char} (h : Ends rest) :
    readFraction unfinished (NumberSpelling.writeFraction n.parts.fraction (n.writeExponent rest)) =
      .ok (n.parts.fraction, n.writeExponent rest) := by
  apply readFraction_append unfinished n.wellFormed.fraction
  intro c cs hcs
  rcases head_writeExponent hcs with rfl | hrest
  · exact mark_isDigit n
  · exact ⟨(h c cs hrest).1, (h c cs hrest).2.1⟩

theorem readWhole_write (n : NumberSpelling) (unfinished : Fault) {rest : List Char} (h : Ends rest) :
    readWhole unfinished (n.writeUnsigned rest) =
      .ok (n.parts.whole, NumberSpelling.writeFraction n.parts.fraction (n.writeExponent rest)) :=
  readWhole_append unfinished n.wellFormed.whole n.wellFormed.noLeadingZero (noDigit_writeFraction n h)

theorem readNumberText_write (n : NumberSpelling) (unfinished : Fault) {rest : List Char} (h : Ends rest) :
    readNumberText unfinished n.parts.negative (n.writeUnsigned rest) = .ok (n.parts, rest) := by
  simp only [readNumberText, readWhole_write n unfinished h, readFraction_write n unfinished h,
    readExponent_write n unfinished h, ok_bind]

/-! ### Strings -/

/-- The characters of an escape that was read are passed over. -/
theorem readStringChars_taken (escape : Escape) (taken : Nat) (read cs : List Char) :
    readStringChars escape taken read cs = readStringChars escape 0 read (cs.drop taken) := by
  induction cs generalizing taken with
  | nil => cases taken <;> rfl
  | cons c cs ih =>
    cases taken with
    | zero => rfl
    | succ taken => rw [readStringChars, ih, List.drop_succ_cons]

theorem readStringChars_escape {escape : Escape} {read cs : List Char} {e : Char} {taken : Nat}
    (h : escape cs = .ok (e, taken)) :
    readStringChars escape 0 read ('\\' :: cs) = readStringChars escape 0 (e :: read) (cs.drop taken) := by
  rw [readStringChars, if_neg (by decide), if_pos rfl, h]
  exact readStringChars_taken _ _ _ _

theorem readStringChars_fault {escape : Escape} {read cs : List Char} {fault : Fault}
    (h : escape cs = .error fault) : readStringChars escape 0 read ('\\' :: cs) = .error fault := by
  rw [readStringChars, if_neg (by decide), if_pos rfl, h]

theorem ne_u_of_letterEscape? {l c : Char} (h : letterEscape? l = some c) : l ≠ 'u' := by
  rintro rfl
  have hnone : letterEscape? 'u' = none := by decide
  rw [hnone] at h
  cases h

theorem codeUnit_append {a b c d : Char} {unit : Nat} (h : codeUnit [a, b, c, d] = .ok unit)
    (rest : List Char) : codeUnit (a :: b :: c :: d :: rest) = .ok unit := h

/-- Half a surrogate pair needs the other half right behind it. -/
theorem lowSurrogate_eq_error (spelled : List CharSpelling) (rest : List Char)
    (h : ∀ a b c d low stands more, spelled = .unit a b c d low stands :: more → ¬isLowSurrogate low = true) :
    lowSurrogate (spelled.flatMap CharSpelling.chars ++ '"' :: rest) = .error .malformed := by
  cases spelled with
  | nil => simp [lowSurrogate]
  | cons first spelled =>
    cases first with
    | raw c hc => simp [lowSurrogate, CharSpelling.chars, hc]
    | letter l c hl => simp [lowSurrogate, CharSpelling.chars, ne_u_of_letterEscape? hl]
    | unit a b c d low hlow =>
      have hunit := codeUnit_append hlow (spelled.flatMap CharSpelling.chars ++ '"' :: rest)
      simp [lowSurrogate, CharSpelling.chars, hunit, h a b c d low hlow spelled rfl]

theorem escapeWith_unit {a b c d : Char} {unit : Nat} (h : codeUnit [a, b, c, d] = .ok unit)
    (tail : List Char) :
    escapeWith numberEscape ('u' :: a :: b :: c :: d :: tail) =
      if isLowSurrogate unit then .error .malformed
      else if isHighSurrogate unit then do
        let low ← lowSurrogate tail
        .ok (Char.ofNat (0x10000 + (unit - 0xD800) * 0x400 + (low - 0xDC00)), 11)
      else .ok (Char.ofNat unit, 5) := by
  rw [escapeWith, if_pos rfl, numberEscape, codeUnit_append h, ok_bind]
  rfl

theorem decode_unit {a b c d : Char} {unit : Nat} (h : codeUnit [a, b, c, d] = .ok unit)
    (spelled : List CharSpelling) (hsingle : ¬isHighSurrogate unit = true) :
    CharSpelling.decode (.unit a b c d unit h :: spelled) =
      if isLowSurrogate unit then .error .malformed
      else (do .ok (Char.ofNat unit :: (← CharSpelling.decode spelled))) := by
  rw [CharSpelling.decode.eq_def]
  simp [hsingle]

theorem not_isHighSurrogate {unit : Nat} (h : isLowSurrogate unit = true) : ¬isHighSurrogate unit = true := by
  simp only [isLowSurrogate, isHighSurrogate, decide_eq_true_eq] at *
  omega

theorem leaving_decode_cons (rest read : List Char) (e : Char) (o : Except Fault (List Char)) :
    leaving rest (do .ok ((e :: read).reverse ++ (← o))) =
      leaving rest (do .ok (read.reverse ++ (← (do .ok (e :: (← o)))))) := by
  cases o <;> simp

/-- A string is read up to its closing quote and stands for what its characters decode to. -/
theorem readStringChars_write (spelled : List CharSpelling) (read rest : List Char) :
    readStringChars (escapeWith numberEscape) 0 read (spelled.flatMap CharSpelling.chars ++ '"' :: rest) =
      leaving rest (do .ok (read.reverse ++ (← CharSpelling.decode spelled))) := by
  induction spelled using CharSpelling.decode.induct generalizing read with
  | case1 => simp [readStringChars, CharSpelling.decode]
  | case2 c hc spelled ih =>
    obtain ⟨hquote, hbackslash, hcontrol⟩ := hc
    simp only [List.flatMap_cons, CharSpelling.chars, List.cons_append, List.nil_append, CharSpelling.decode]
    rw [readStringChars, if_neg hquote, if_neg hbackslash, if_neg (by omega), ih (c :: read),
      leaving_decode_cons]
  | case3 l c hl spelled ih =>
    have hescape : escapeWith numberEscape (l :: (spelled.flatMap CharSpelling.chars ++ '"' :: rest)) =
        .ok (c, 1) := by
      rw [escapeWith, if_neg (ne_u_of_letterEscape? hl), hl]
    simp only [List.flatMap_cons, CharSpelling.chars, List.cons_append, List.nil_append, CharSpelling.decode]
    rw [readStringChars_escape hescape, List.drop_succ_cons, List.drop_zero, ih (c :: read),
      leaving_decode_cons]
  | case4 a b c d unit hunit spelled hlow =>
    have hescape := escapeWith_unit hunit (spelled.flatMap CharSpelling.chars ++ '"' :: rest)
    rw [if_pos hlow] at hescape
    simp only [List.flatMap_cons, CharSpelling.chars, List.cons_append, List.nil_append]
    rw [readStringChars_fault hescape, decode_unit hunit _ (not_isHighSurrogate hlow), if_pos hlow]
    rfl
  | case5 a b c d high hhigh hlow hpair a' b' c' d' low hunit spelled hlow' ih =>
    have hescape := escapeWith_unit hhigh
      ('\\' :: 'u' :: a' :: b' :: c' :: d' :: (spelled.flatMap CharSpelling.chars ++ '"' :: rest))
    rw [if_neg hlow, if_pos hpair] at hescape
    simp only [lowSurrogate, if_pos, codeUnit_append hunit, ok_bind, if_pos hlow'] at hescape
    simp only [List.flatMap_cons, CharSpelling.chars, List.cons_append, List.nil_append, CharSpelling.decode]
    rw [readStringChars_escape hescape, if_neg hlow, if_pos hpair, if_pos hlow']
    exact (ih _).trans (leaving_decode_cons _ _ _ _)
  | case6 a b c d high hhigh hlow hpair a' b' c' d' low hunit spelled hlow' =>
    have hescape := escapeWith_unit hhigh
      ('\\' :: 'u' :: a' :: b' :: c' :: d' :: (spelled.flatMap CharSpelling.chars ++ '"' :: rest))
    rw [if_neg hlow, if_pos hpair] at hescape
    simp only [lowSurrogate, if_pos, codeUnit_append hunit, ok_bind, if_neg hlow', error_bind] at hescape
    simp only [List.flatMap_cons, CharSpelling.chars, List.cons_append, List.nil_append, CharSpelling.decode]
    rw [readStringChars_fault hescape, if_neg hlow, if_pos hpair, if_neg hlow']
    rfl
  | case7 a b c d high hhigh spelled hlow hpair hnot =>
    have hescape := escapeWith_unit hhigh (spelled.flatMap CharSpelling.chars ++ '"' :: rest)
    rw [if_neg hlow, if_pos hpair, lowSurrogate_eq_error spelled rest
      (fun a b c d low stands more h => absurd h (hnot a b c d low stands more))] at hescape
    simp only [List.flatMap_cons, CharSpelling.chars, List.cons_append, List.nil_append]
    rw [readStringChars_fault hescape, CharSpelling.decode, if_neg hlow, if_pos hpair]
    · rfl
    · exact hnot
  | case8 a b c d unit hunit spelled hlow hpair ih =>
    have hescape := escapeWith_unit hunit (spelled.flatMap CharSpelling.chars ++ '"' :: rest)
    rw [if_neg hlow, if_neg hpair] at hescape
    simp only [List.flatMap_cons, CharSpelling.chars, List.cons_append, List.nil_append]
    rw [readStringChars_escape hescape, decode_unit hunit _ hpair, if_neg hlow]
    exact (ih _).trans (leaving_decode_cons _ _ _ _)

theorem readString_write (s : StringSpelling) (rest : List Char) :
    readString .full (s.writeOpened rest) = leaving rest s.meaning := by
  have hread := readStringChars_write s.chars [] rest
  simp only [readString, Rules.full, StringSpelling.writeOpened, StringSpelling.meaning, hread]
  cases CharSpelling.decode s.chars <;> rfl

end SyntaxTree.Json
