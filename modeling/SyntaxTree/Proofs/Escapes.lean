import SyntaxTree.Proofs.ValueSpelling

/-!
How characters are spelled inside a string. A character stands as it is, as a letter behind a backslash or as its
number, and a character outside the first plane as two numbers. What is between two quotes either spells a text in
this way, and then it stands for that text and for no other; or half a surrogate pair stands alone in it, and then it
stands for nothing.
-/

namespace SyntaxTree.Json

/-! ### Code units -/

theorem lt_of_hexDigit? {c : Char} {digit : Nat} (h : hexDigit? c = some digit) : digit < 16 := by
  simp only [hexDigit?, Char.isDigit, Bool.and_eq_true, decide_eq_true_eq, Char.le_def, UInt32.le_iff_toNat_le,
    Char.toNat] at h
  split at h
  · cases h
    simp at *
    omega
  · split at h
    · cases h
      simp at *
      omega
    · split at h
      · cases h
        simp at *
        omega
      · cases h

theorem lt_of_codeUnit {a b c d : Char} {unit : Nat} (h : codeUnit [a, b, c, d] = .ok unit) : unit < 0x10000 := by
  rw [codeUnit] at h
  split at h
  · rename_i ha hb hc hd
    have hbounds := And.intro (And.intro (lt_of_hexDigit? ha) (lt_of_hexDigit? hb))
      (And.intro (lt_of_hexDigit? hc) (lt_of_hexDigit? hd))
    cases h
    omega
  · cases h

theorem toNat_ofNat {n : Nat} (h : n.isValidChar) : (Char.ofNat n).toNat = n := by
  rw [Char.ofNat, dif_pos h]
  rfl

/-- A code unit that is no half of a pair is the number of a character. -/
theorem toNat_ofNat_unit {unit : Nat} (hlt : unit < 0x10000) (hlow : ¬isLowSurrogate unit = true)
    (hhigh : ¬isHighSurrogate unit = true) : (Char.ofNat unit).toNat = unit := by
  simp only [isLowSurrogate, isHighSurrogate, decide_eq_true_eq] at hlow hhigh
  exact toNat_ofNat (by simp only [Nat.isValidChar]; omega)

/-- Two halves of a pair are the number of a character. -/
theorem toNat_ofNat_pair {high low : Nat} (hhigh : isHighSurrogate high = true) (hlow : isLowSurrogate low = true) :
    (Char.ofNat (0x10000 + (high - 0xD800) * 0x400 + (low - 0xDC00))).toNat =
      0x10000 + (high - 0xD800) * 0x400 + (low - 0xDC00) := by
  simp only [isLowSurrogate, isHighSurrogate, decide_eq_true_eq] at hlow hhigh
  exact toNat_ofNat (by simp only [Nat.isValidChar]; omega)

namespace CharSpelling

/-- Whether the first half of a surrogate pair is spelled. -/
def isHigh : CharSpelling → Bool
  | unit _ _ _ _ number _ => isHighSurrogate number
  | _ => false

/-- Whether the second half of a surrogate pair is spelled. -/
def isLow : CharSpelling → Bool
  | unit _ _ _ _ number _ => isLowSurrogate number
  | _ => false

theorem isHigh_eq_false_of_isLow {half : CharSpelling} (h : half.isLow = true) : half.isHigh = false := by
  cases half with
  | unit a b c d unit stands => exact Bool.eq_false_iff.mpr (not_isHighSurrogate h)
  | raw c isRaw => rfl
  | letter l c stands => rfl

/-! ### Characters that are spelled -/

/-- The characters of a text, each spelled in one of its ways. -/
inductive Spells : List Char → List CharSpelling → Prop where
  | nil : Spells [] []
  | raw {c : Char} {cs : List Char} {spelled : List CharSpelling} (isRaw : c ≠ '"' ∧ c ≠ '\\' ∧ 0x20 ≤ c.toNat)
    (h : Spells cs spelled) : Spells (c :: cs) (.raw c isRaw :: spelled)
  | letter {l c : Char} {cs : List Char} {spelled : List CharSpelling} (stands : letterEscape? l = some c)
    (h : Spells cs spelled) : Spells (c :: cs) (.letter l c stands :: spelled)
  | number {a b c d char : Char} {cs : List Char} {spelled : List CharSpelling} {unit : Nat}
    (stands : codeUnit [a, b, c, d] = .ok unit) (hunit : char.toNat = unit) (h : Spells cs spelled) :
    Spells (char :: cs) (.unit a b c d unit stands :: spelled)
  | pair {a b c d a' b' c' d' char : Char} {cs : List Char} {spelled : List CharSpelling} {high low : Nat}
    (stands : codeUnit [a, b, c, d] = .ok high) (stands' : codeUnit [a', b', c', d'] = .ok low)
    (hhigh : isHighSurrogate high = true) (hlow : isLowSurrogate low = true)
    (hpair : char.toNat = 0x10000 + (high - 0xD800) * 0x400 + (low - 0xDC00)) (h : Spells cs spelled) :
    Spells (char :: cs) (.unit a b c d high stands :: .unit a' b' c' d' low stands' :: spelled)

/-- The number of a character is no half of a pair. -/
theorem not_surrogate_toNat (c : Char) : ¬isLowSurrogate c.toNat = true ∧ ¬isHighSurrogate c.toNat = true := by
  simp only [isLowSurrogate, isHighSurrogate, decide_eq_true_eq]
  have hvalid : c.toNat.isValidChar := c.valid
  simp only [Nat.isValidChar] at hvalid
  omega

theorem decode_of_spells {cs : List Char} {spelled : List CharSpelling} (h : Spells cs spelled) :
    decode spelled = .ok cs := by
  induction h with
  | nil => rfl
  | raw isRaw h ih => rw [decode, ih, ok_bind]
  | letter stands h ih => rw [decode, ih, ok_bind]
  | @number a b c d char cs spelled unit stands hunit h ih =>
    subst hunit
    obtain ⟨hlow, hhigh⟩ := not_surrogate_toNat char
    rw [decode_unit stands _ hhigh, if_neg hlow, ih, ok_bind, Char.ofNat_toNat]
  | @pair a b c d a' b' c' d' char cs spelled high low stands stands' hhigh hlow hpair h ih =>
    have hnotLow : ¬isLowSurrogate high = true := fun h => not_isHighSurrogate h hhigh
    rw [decode, if_neg hnotLow, if_pos hhigh, if_pos hlow, ih, ok_bind, ← hpair, Char.ofNat_toNat]

/-- Characters that spell what they are decoded to, unless they are malformed. -/
def Settled (spelled : List CharSpelling) : Prop :=
  (∃ cs, Spells cs spelled ∧ decode spelled = .ok cs) ∨ decode spelled = .error .malformed

theorem Settled.cons {spelled longer : List CharSpelling} {c : Char} (h : Settled spelled)
    (hdecode : decode longer = (do .ok (c :: (← decode spelled))))
    (hspells : ∀ cs, Spells cs spelled → Spells (c :: cs) longer) : Settled longer := by
  rcases h with ⟨cs, hcs, hok⟩ | herror
  · exact .inl ⟨c :: cs, hspells cs hcs, by rw [hdecode, hok, ok_bind]⟩
  · exact .inr (by rw [hdecode, herror, error_bind])

theorem settled (spelled : List CharSpelling) : Settled spelled := by
  induction spelled using decode.induct with
  | case1 => exact .inl ⟨[], .nil, rfl⟩
  | case2 c isRaw spelled ih => exact ih.cons rfl fun cs h => .raw isRaw h
  | case3 l c stands spelled ih => exact ih.cons rfl fun cs h => .letter stands h
  | case4 a b c d unit stands spelled hlow =>
    right
    rw [decode_unit stands _ (not_isHighSurrogate hlow), if_pos hlow]
  | case5 a b c d high stands hlow hhigh a' b' c' d' low stands' spelled hlow' ih =>
    refine ih.cons ?_ fun cs h => .pair stands stands' hhigh hlow' (toNat_ofNat_pair hhigh hlow') h
    rw [decode, if_neg hlow, if_pos hhigh, if_pos hlow']
  | case6 a b c d high stands hlow hhigh a' b' c' d' low stands' spelled hlow' =>
    right
    rw [decode, if_neg hlow, if_pos hhigh, if_neg hlow']
  | case7 a b c d high stands spelled hlow hhigh hnot =>
    right
    rw [decode, if_neg hlow, if_pos hhigh]
    exact hnot
  | case8 a b c d unit stands spelled hlow hhigh ih =>
    refine ih.cons ?_ fun cs h => .number stands (toNat_ofNat_unit (lt_of_codeUnit stands) hlow hhigh) h
    rw [decode_unit stands _ hhigh, if_neg hlow]

/-- What is between two quotes stands for the text that it spells. -/
theorem decode_eq_ok_iff {cs : List Char} {spelled : List CharSpelling} :
    decode spelled = .ok cs ↔ Spells cs spelled := by
  constructor
  · intro h
    rcases settled spelled with ⟨cs', hspells, hok⟩ | herror
    · rw [h] at hok
      cases hok
      exact hspells
    · rw [h] at herror
      cases herror
  · exact decode_of_spells

/-! ### Half a pair -/

/-- Half a surrogate pair stands alone: the first half without the second behind it, or the second half without the
first in front of it. -/
def HasLoneSurrogate (spelled : List CharSpelling) : Prop :=
  ∃ before half after, spelled = before ++ half :: after ∧
    (half.isHigh = true ∧ (∀ next ∈ after.head?, next.isLow = false) ∨
      half.isLow = true ∧ ∀ last ∈ before.getLast?, last.isHigh = false)

theorem forall_mem_getLast?_cons {first : CharSpelling} (h : first.isHigh = false) (before : List CharSpelling) :
    (∀ last ∈ (first :: before).getLast?, last.isHigh = false) ↔ ∀ last ∈ before.getLast?, last.isHigh = false := by
  cases before with
  | nil => simp [h]
  | cons second before => rw [List.getLast?_cons_cons]

theorem hasLoneSurrogate_cons {first : CharSpelling} (hhigh : first.isHigh = false) (hlow : first.isLow = false)
    (spelled : List CharSpelling) : HasLoneSurrogate (first :: spelled) ↔ HasLoneSurrogate spelled := by
  constructor
  · rintro ⟨before, half, after, hspelled, hlone⟩
    cases before with
    | nil =>
      cases hspelled
      simp [hhigh, hlow] at hlone
    | cons _ before =>
      cases hspelled
      rw [forall_mem_getLast?_cons hhigh] at hlone
      exact ⟨before, half, after, rfl, hlone⟩
  · rintro ⟨before, half, after, rfl, hlone⟩
    rw [← forall_mem_getLast?_cons hhigh] at hlone
    exact ⟨first :: before, half, after, rfl, hlone⟩

theorem hasLoneSurrogate_pair {high low : CharSpelling} (hhigh : high.isHigh = true) (hlow : low.isLow = true)
    (spelled : List CharSpelling) : HasLoneSurrogate (high :: low :: spelled) ↔ HasLoneSurrogate spelled := by
  have hnotHigh : low.isHigh = false := isHigh_eq_false_of_isLow hlow
  have hnotLow : high.isLow = false := by
    by_contra h
    rw [isHigh_eq_false_of_isLow (by simpa using h)] at hhigh
    cases hhigh
  constructor
  · rintro ⟨before, half, after, hspelled, hlone⟩
    -- neither half of the pair is the lone one, each has the other beside it
    rcases before with _ | ⟨_, _ | ⟨_, before⟩⟩
    · cases hspelled
      simp [hlow, hnotLow] at hlone
    · cases hspelled
      simp [hhigh, hnotHigh] at hlone
    · cases hspelled
      rw [List.getLast?_cons_cons, forall_mem_getLast?_cons hnotHigh] at hlone
      exact ⟨before, half, after, rfl, hlone⟩
  · rintro ⟨before, half, after, rfl, hlone⟩
    rw [← forall_mem_getLast?_cons hnotHigh] at hlone
    exact ⟨high :: low :: before, half, after, rfl, by rwa [List.getLast?_cons_cons]⟩

theorem not_hasLoneSurrogate_of_spells {cs : List Char} {spelled : List CharSpelling} (h : Spells cs spelled) :
    ¬HasLoneSurrogate spelled := by
  induction h with
  | nil => simp [HasLoneSurrogate]
  | raw isRaw h ih => rwa [hasLoneSurrogate_cons rfl rfl]
  | letter stands h ih => rwa [hasLoneSurrogate_cons rfl rfl]
  | @number a b c d char cs spelled unit stands hunit h ih =>
    subst hunit
    obtain ⟨hlow, hhigh⟩ := not_surrogate_toNat char
    have hnotHigh : (unit a b c d char.toNat stands).isHigh = false := Bool.eq_false_iff.mpr hhigh
    have hnotLow : (unit a b c d char.toNat stands).isLow = false := Bool.eq_false_iff.mpr hlow
    rwa [hasLoneSurrogate_cons hnotHigh hnotLow]
  | @pair a b c d a' b' c' d' char cs spelled high low stands stands' hhigh hlow hpair h ih =>
    have hfirst : (unit a b c d high stands).isHigh = true := hhigh
    have hsecond : (unit a' b' c' d' low stands').isLow = true := hlow
    rwa [hasLoneSurrogate_pair hfirst hsecond]

/-- Half a pair that stands alone breaks the string. -/
theorem decode_of_hasLoneSurrogate {spelled : List CharSpelling} (h : HasLoneSurrogate spelled) :
    decode spelled = .error .malformed := by
  rcases settled spelled with ⟨cs, hspells, -⟩ | herror
  · exact absurd h (not_hasLoneSurrogate_of_spells hspells)
  · exact herror

end CharSpelling

/-! ### Strings -/

namespace StringSpelling

def Spells (s : StringSpelling) (text : String) : Prop := CharSpelling.Spells text.toList s.chars

def HasLoneSurrogate (s : StringSpelling) : Prop := CharSpelling.HasLoneSurrogate s.chars

theorem meaning_eq_ok_iff {s : StringSpelling} {text : String} : s.meaning = .ok text ↔ s.Spells text := by
  rw [meaning, bind_eq_ok, Spells, ← CharSpelling.decode_eq_ok_iff]
  constructor
  · rintro ⟨cs, hcs, h⟩
    cases h
    rw [hcs, String.toList_ofList]
  · intro h
    exact ⟨text.toList, h, by rw [String.ofList_toList]⟩

theorem meaning_of_hasLoneSurrogate {s : StringSpelling} (h : s.HasLoneSurrogate) : s.meaning = .error .malformed := by
  rw [meaning, CharSpelling.decode_of_hasLoneSurrogate h, error_bind]

end StringSpelling

end SyntaxTree.Json
