import SyntaxTree.Proofs.SpelledPlace

/-!
Counting brackets in a text. A scan over the characters, which knows only whether it stands inside a string,
finds the brackets and the largest number of them that are open at once; on a spelling this is its depth.
-/

namespace SyntaxTree.Json

/-- Where a scan stands: outside strings, inside one, or behind a backslash inside one. -/
inductive Stand where
  | outside
  | inside
  | escaped

/-- The largest number of brackets open at once in a text that starts with `opened` open ones. -/
def peak : Stand → Nat → List Char → Nat
  | _, opened, [] => opened
  | .escaped, opened, _ :: cs => peak .inside opened cs
  | .inside, opened, c :: cs =>
    if c = '"' then peak .outside opened cs
    else if c = '\\' then peak .escaped opened cs
    else peak .inside opened cs
  | .outside, opened, c :: cs =>
    if c = '"' then peak .inside opened cs
    else if c = '[' ∨ c = '{' then peak .outside (opened + 1) cs
    else if c = ']' ∨ c = '}' then max opened (peak .outside (opened - 1) cs)
    else peak .outside opened cs

/-- The largest number of brackets open at once in a text. -/
def maxOpen (text : String) : Nat := peak .outside 0 text.toList

/-- The brackets of a text outside its strings, each with the characters behind it. -/
def brackets : Stand → List Char → List (Char × List Char)
  | _, [] => []
  | .escaped, _ :: cs => brackets .inside cs
  | .inside, c :: cs =>
    if c = '"' then brackets .outside cs
    else if c = '\\' then brackets .escaped cs
    else brackets .inside cs
  | .outside, c :: cs =>
    if c = '"' then brackets .inside cs
    else if (c = '[' ∨ c = '{') ∨ c = ']' ∨ c = '}' then (c, cs) :: brackets .outside cs
    else brackets .outside cs

/-- The largest number of brackets open at once among the given ones, with `opened` open before them. -/
def peakAmong : Nat → List (Char × List Char) → Nat
  | opened, [] => opened
  | opened, (c, _) :: more =>
    if c = '[' ∨ c = '{' then peakAmong (opened + 1) more else max opened (peakAmong (opened - 1) more)

/-- A character that means nothing to a scan outside strings. -/
def IsPlain (c : Char) : Prop := c ≠ '"' ∧ c ≠ '[' ∧ c ≠ '{' ∧ c ≠ ']' ∧ c ≠ '}'

/-- Only the brackets of a text count. -/
theorem peak_eq_peakAmong (stand : Stand) (opened : Nat) (cs : List Char) :
    peak stand opened cs = peakAmong opened (brackets stand cs) := by
  induction cs generalizing stand opened with
  | nil => cases stand <;> rfl
  | cons c cs ih =>
    cases stand with
    | escaped => exact ih .inside opened
    | inside =>
      rw [peak, brackets]
      split
      · exact ih .outside opened
      · split
        · exact ih .escaped opened
        · exact ih .inside opened
    | outside =>
      rw [peak, brackets]
      split
      · exact ih .inside opened
      · by_cases hopen : c = '[' ∨ c = '{'
        · rw [if_pos hopen, if_pos (.inl hopen), peakAmong, if_pos hopen]
          exact ih .outside (opened + 1)
        · rw [if_neg hopen]
          by_cases hclose : c = ']' ∨ c = '}'
          · rw [if_pos hclose, if_pos (.inr hclose), peakAmong, if_neg hopen, ih .outside (opened - 1)]
          · rw [if_neg hclose, if_neg (not_or_intro hopen hclose)]
            exact ih .outside opened

theorem le_peakAmong (opened : Nat) (more : List (Char × List Char)) : opened ≤ peakAmong opened more := by
  induction more generalizing opened with
  | nil => exact Nat.le_refl _
  | cons bracket more ih =>
    rw [peakAmong]
    split
    · exact Nat.le_trans (Nat.le_succ _) (ih (opened + 1))
    · exact Nat.le_max_left _ _

section

variable (rest : List Char)

theorem brackets_plain {c : Char} (h : IsPlain c) : brackets .outside (c :: rest) = brackets .outside rest := by
  obtain ⟨hquote, hopenArray, hopenObject, hcloseArray, hcloseObject⟩ := h
  rw [brackets, if_neg hquote,
    if_neg (not_or_intro (not_or_intro hopenArray hopenObject) (not_or_intro hcloseArray hcloseObject))]

theorem brackets_append_plain {cs : List Char} (h : ∀ c ∈ cs, IsPlain c) :
    brackets .outside (cs ++ rest) = brackets .outside rest := by
  induction cs with
  | nil => rfl
  | cons c cs ih =>
    rw [List.cons_append, brackets_plain _ (h c List.mem_cons_self)]
    exact ih fun c hc => h c (List.mem_cons_of_mem _ hc)

theorem isPlain_of_isBlank {c : Char} (h : isBlank c = true) : IsPlain c := by
  simp only [isBlank, Bool.or_eq_true, beq_iff_eq] at h
  rcases h with ((rfl | rfl) | rfl) | rfl <;> refine ⟨?_, ?_, ?_, ?_, ?_⟩ <;> decide

theorem isPlain_of_isDigit {c : Char} (h : c.isDigit = true) : IsPlain c :=
  ⟨ne_of_isDigit h (by decide), ne_of_isDigit h (by decide), ne_of_isDigit h (by decide),
    ne_of_isDigit h (by decide), ne_of_isDigit h (by decide)⟩

theorem brackets_blanks (blanks : Blanks) : brackets .outside (blanks.chars ++ rest) = brackets .outside rest :=
  brackets_append_plain rest fun c hc => isPlain_of_isBlank (blanks.isBlank_of_mem c hc)

theorem brackets_digits {digits : List Char} (h : ∀ c ∈ digits, c.isDigit = true) :
    brackets .outside (digits ++ rest) = brackets .outside rest :=
  brackets_append_plain rest fun c hc => isPlain_of_isDigit (h c hc)

theorem brackets_comma (first : Bool) : brackets .outside (writeComma first rest) = brackets .outside rest := by
  cases first with
  | true => rfl
  | false => exact brackets_plain rest (by unfold IsPlain; decide)

theorem brackets_colon : brackets .outside (':' :: rest) = brackets .outside rest :=
  brackets_plain rest (by unfold IsPlain; decide)

/-! ### Scalars -/

theorem brackets_writeExponent (n : NumberSpelling) :
    brackets .outside (n.writeExponent rest) = brackets .outside rest := by
  have hmark : IsPlain n.mark := by
    rcases n.mark_eq with h | h <;> rw [h] <;> unfold IsPlain <;> decide
  unfold NumberSpelling.writeExponent
  split
  · rfl
  · rename_i digits hsome
    have hdigits := n.wellFormed.exponent _ hsome
    rw [brackets_plain _ hmark, brackets_plain _ (by unfold IsPlain; decide), brackets_digits _ hdigits.2]
  · rename_i digits hsome
    have hdigits := n.wellFormed.exponent _ hsome
    rw [brackets_plain _ hmark]
    split
    · rw [brackets_plain _ (by unfold IsPlain; decide), brackets_digits _ hdigits.2]
    · rw [brackets_digits _ hdigits.2]

theorem brackets_writeFraction {fraction : List Char} (h : ∀ c ∈ fraction, c.isDigit = true) :
    brackets .outside (NumberSpelling.writeFraction fraction rest) = brackets .outside rest := by
  unfold NumberSpelling.writeFraction
  split
  · rfl
  · rw [brackets_plain _ (by unfold IsPlain; decide), brackets_digits _ h]

theorem brackets_number (n : NumberSpelling) : brackets .outside (n.write rest) = brackets .outside rest := by
  have hunsigned : brackets .outside (n.writeUnsigned rest) = brackets .outside rest := by
    rw [NumberSpelling.writeUnsigned, brackets_digits _ n.wellFormed.whole.2,
      brackets_writeFraction _ n.wellFormed.fraction, brackets_writeExponent]
  unfold NumberSpelling.write
  cases n.parts.negative with
  | true =>
    calc brackets .outside ('-' :: n.writeUnsigned rest)
      _ = brackets .outside (n.writeUnsigned rest) := brackets_plain _ (by unfold IsPlain; decide)
      _ = brackets .outside rest := hunsigned
  | false => exact hunsigned

theorem ne_of_hexDigit? {c : Char} {n : Nat} (h : hexDigit? c = some n) : c ≠ '"' ∧ c ≠ '\\' := by
  constructor
  · rintro rfl
    have hnone : hexDigit? '"' = none := by decide
    rw [hnone] at h
    cases h
  · rintro rfl
    have hnone : hexDigit? '\\' = none := by decide
    rw [hnone] at h
    cases h

theorem brackets_inside {c : Char} (h : c ≠ '"' ∧ c ≠ '\\') :
    brackets .inside (c :: rest) = brackets .inside rest := by
  rw [brackets, if_neg h.1, if_neg h.2]

/-- The four digits of a code unit are no quotes and no backslashes. -/
theorem brackets_codeUnit {a b c d : Char} {unit : Nat} (h : codeUnit [a, b, c, d] = .ok unit) :
    brackets .inside (a :: b :: c :: d :: rest) = brackets .inside rest := by
  rw [codeUnit] at h
  split at h
  · rename_i a' b' c' d' ha hb hc hd
    rw [brackets_inside _ (ne_of_hexDigit? ha), brackets_inside _ (ne_of_hexDigit? hb),
      brackets_inside _ (ne_of_hexDigit? hc), brackets_inside _ (ne_of_hexDigit? hd)]
  · cases h

theorem brackets_string (s : StringSpelling) : brackets .outside (s.write rest) = brackets .outside rest := by
  have hchars : ∀ spelled : List CharSpelling,
      brackets .inside (spelled.flatMap CharSpelling.chars ++ '"' :: rest) = brackets .outside rest := by
    intro spelled
    induction spelled with
    | nil => rfl
    | cons char spelled ih =>
      rw [List.flatMap_cons, List.append_assoc]
      cases char with
      | raw c hc => exact (brackets_inside _ ⟨hc.1, hc.2.1⟩).trans ih
      | letter l c hl => exact ih
      | unit a b c d unit hunit => exact (brackets_codeUnit _ hunit).trans ih
  exact hchars s.chars

theorem brackets_scalar {s : Spelling} (h : s.isScalar = true) :
    brackets .outside (s.write rest) = brackets .outside rest := by
  cases s with
  | array _ _ => cases h
  | object _ _ => cases h
  | null => rfl
  | bool value => cases value <;> rfl
  | number n => exact brackets_number rest n
  | string s => exact brackets_string rest s

/-- Up to the value of a member there are no brackets. -/
theorem brackets_label (label : Label) (first : Bool) :
    brackets .outside (writeComma first (label.before.chars ++ label.name.write (label.beforeColon.chars ++
      ':' :: (label.afterColon.chars ++ rest)))) = brackets .outside rest := by
  rw [brackets_comma, brackets_blanks, brackets_string, brackets_blanks, brackets_colon, brackets_blanks]

/-! ### Values -/

variable (opened : Nat)

theorem max_peakAmong (more : List (Char × List Char)) : max opened (peakAmong opened more) = peakAmong opened more :=
  Nat.max_eq_right (le_peakAmong opened more)

theorem peakAmong_writeItems {items : List (Around × Spelling)}
    (h : ∀ item ∈ items, ∀ rest, peakAmong opened (brackets .outside (item.2.write rest)) =
      max (opened + item.2.depth) (peakAmong opened (brackets .outside rest))) (first : Bool) :
    peakAmong opened (brackets .outside (Spelling.writeItems first items rest)) =
      max (opened + Spelling.itemsDepth items) (peakAmong opened (brackets .outside rest)) := by
  induction items generalizing first with
  | nil => exact (max_peakAmong opened _).symm
  | cons item items ih =>
    rw [Spelling.writeItems, brackets_comma, brackets_blanks, h item List.mem_cons_self, brackets_blanks,
      ih (fun item hitem => h item (List.mem_cons_of_mem _ hitem)), Spelling.itemsDepth]
    omega

theorem peakAmong_writeMembers {members : List (Label × Spelling)}
    (h : ∀ member ∈ members, ∀ rest, peakAmong opened (brackets .outside (member.2.write rest)) =
      max (opened + member.2.depth) (peakAmong opened (brackets .outside rest))) (first : Bool) :
    peakAmong opened (brackets .outside (Spelling.writeMembers first members rest)) =
      max (opened + Spelling.membersDepth members) (peakAmong opened (brackets .outside rest)) := by
  induction members generalizing first with
  | nil => exact (max_peakAmong opened _).symm
  | cons member members ih =>
    rw [Spelling.writeMembers, brackets_label, h member List.mem_cons_self, brackets_blanks,
      ih (fun member hmember => h member (List.mem_cons_of_mem _ hmember)), Spelling.membersDepth]
    omega

/-- A spelling adds its depth to what is open around it. -/
theorem peakAmong_write (s : Spelling) :
    peakAmong opened (brackets .outside (s.write rest)) =
      max (opened + s.depth) (peakAmong opened (brackets .outside rest)) := by
  induction s using Spelling.induction generalizing opened rest with
  | scalar s h => rw [Spelling.depth_of_isScalar h, Nat.add_zero, max_peakAmong, brackets_scalar rest h]
  | array blanks items ih =>
    have hitems := peakAmong_writeItems (']' :: rest) (opened + 1) (fun item h rest => ih item h rest (opened + 1)) true
    have hclose : peakAmong (opened + 1) (brackets .outside (']' :: rest)) =
        max (opened + 1) (peakAmong opened (brackets .outside rest)) := rfl
    have hopen : peakAmong opened (brackets .outside ((Spelling.array blanks items).write rest)) =
        peakAmong (opened + 1)
          (brackets .outside (blanks.chars ++ Spelling.writeItems true items (']' :: rest))) := rfl
    rw [hopen, brackets_blanks, hitems, hclose, Spelling.depth]
    omega
  | object blanks members ih =>
    have hmembers :=
      peakAmong_writeMembers ('}' :: rest) (opened + 1) (fun member h rest => ih member h rest (opened + 1)) true
    have hclose : peakAmong (opened + 1) (brackets .outside ('}' :: rest)) =
        max (opened + 1) (peakAmong opened (brackets .outside rest)) := rfl
    have hopen : peakAmong opened (brackets .outside ((Spelling.object blanks members).write rest)) =
        peakAmong (opened + 1)
          (brackets .outside (blanks.chars ++ Spelling.writeMembers true members ('}' :: rest))) := rfl
    rw [hopen, brackets_blanks, hmembers, hclose, Spelling.depth]
    omega

end

theorem brackets_after (blanks : Blanks) : brackets .outside blanks.chars = [] := by
  have happend := brackets_blanks [] blanks
  rwa [List.append_nil] at happend

/-- A text that is a spelling between blanks has as many brackets open at once as the spelling is deep. -/
theorem maxOpen_textIn (around : Around) (s : Spelling) : maxOpen (s.textIn around) = s.depth := by
  rw [maxOpen, peak_eq_peakAmong, Spelling.textIn, String.toList_ofList, brackets_blanks, peakAmong_write,
    brackets_after, Nat.zero_add, peakAmong, Nat.max_zero]

end SyntaxTree.Json
