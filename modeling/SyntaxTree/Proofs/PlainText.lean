import SyntaxTree.Proofs.Identical
import SyntaxTree.Proofs.PositionalText

/-!
Trees that can be told apart by their canonical text. The text of a tree is not escaped, so a symbol may look like
another leaf and a string may hold its own end; trees without such texts are plain. The first character of a plain
tree gives its form, and the text of an operand ends where the form says: a word before the next space or closing
parenthesis, a string at its quote, an expression at the parenthesis that closes it.
-/

namespace SyntaxTree

namespace Double

/-- The text of a number is `NaN`, or it starts with a digit, a sign or a point. -/
theorem textChars_eq_nan_or_head (x : Double) :
    x.textChars = "NaN".toList ∨
      ∃ c rest, x.textChars = c :: rest ∧ (c.isDigit = true ∨ c = '+' ∨ c = '-' ∨ c = '.') := by
  cases hfinite : x.isFinite with
  | true =>
    obtain ⟨c, rest, htext⟩ := List.exists_cons_of_ne_nil (textChars_ne_nil hfinite)
    refine .inr ⟨c, rest, htext, ?_⟩
    have hc := mem_textChars hfinite (c := c) (by simp [htext])
    tauto
  | false =>
    rcases textChars_of_not_isFinite hfinite with h | h | h
    · exact .inl h
    · exact .inr ⟨'+', "Inf".toList, h, by decide⟩
    · exact .inr ⟨'-', "Inf".toList, h, by decide⟩

end Double

namespace Node

/-! ### Plain trees -/

/-- Whether a letter or an underscore comes first. -/
def startsSymbol (chars : List Char) : Bool := chars.head?.any fun c => c.isAlpha || c == '_'

theorem startsSymbol_iff {chars : List Char} :
    startsSymbol chars = true ↔ ∃ c rest, chars = c :: rest ∧ (c.isAlpha = true ∨ c = '_') := by
  cases chars <;> simp [startsSymbol]

theorem startsSymbol_of_isDigit {c : Char} (h : c.isDigit = true) (rest : List Char) :
    startsSymbol (c :: rest) = false := by
  have hunderscore : c ≠ '_' := by
    rintro rfl
    cases h
  have hletter : c.isAlpha = false := by
    delta Char.isDigit at h
    delta Char.isAlpha Char.isUpper Char.isLower
    grind
  simp [startsSymbol, hletter, hunderscore]

/-- Whether a symbol is one word that looks like no other leaf. -/
def isPlainSymbol (symbol : String) : Bool :=
  startsSymbol symbol.toList && !symbol.toList.contains ' ' && !symbol.toList.contains ')' && symbol != "null" &&
    symbol != "NaN"

/-- Whether a tree is an expression without a text that could be taken for another part of its canonical text. -/
def isPlain : Node → Bool
  | program _ => false
  | number _ => true
  | null => true
  | identifier symbol => isPlainSymbol symbol
  | binary left operator right => left.isPlain && !operator.toList.contains ' ' && right.isPlain
  | string value => !value.toList.contains '"'

theorem isPlainSymbol_iff {symbol : String} :
    isPlainSymbol symbol = true ↔
      startsSymbol symbol.toList = true ∧ ' ' ∉ symbol.toList ∧ ')' ∉ symbol.toList ∧ symbol ≠ "null" ∧
        symbol ≠ "NaN" := by
  simp [isPlainSymbol, and_assoc]

/-! ### Delimiters -/

/-- A part of a text is told apart from the rest if characters of a kind are not in it and come right after it. -/
theorem delimited_inj (ends : Char → Bool) {part part' rest rest' : List Char} (hpart : ∀ c ∈ part, ends c = false)
    (hpart' : ∀ c ∈ part', ends c = false) (hrest : ∀ c ∈ rest.head?, ends c = true)
    (hrest' : ∀ c ∈ rest'.head?, ends c = true) (h : part ++ rest = part' ++ rest') :
    part = part' ∧ rest = rest' := by
  have htake : ∀ {part rest : List Char}, (∀ c ∈ part, ends c = false) → (∀ c ∈ rest.head?, ends c = true) →
      (part ++ rest).takeWhile (fun c => !ends c) = part := by
    intro part rest hpart hrest
    rw [List.takeWhile_append_of_pos (by simpa using hpart)]
    cases rest with
    | nil => simp
    | cons c cs => simp [hrest c rfl]
  have heq : part = part' := by rw [← htake hpart hrest, h, htake hpart' hrest']
  subst heq
  exact ⟨rfl, List.append_cancel_left h⟩

/-- A text without a separator is told apart from what follows the separator. -/
theorem separated_inj {c : Char} {part part' : String} (hpart : part.toList.contains c = false)
    (hpart' : part'.toList.contains c = false) {rest rest' : List Char}
    (h : part.toList ++ c :: rest = part'.toList ++ c :: rest') : part = part' ∧ rest = rest' := by
  have hnot : ∀ {part : String}, part.toList.contains c = false → ∀ d ∈ part.toList, (d == c) = false := by
    intro part hpart d hd
    rw [beq_eq_false_iff_ne]
    exact ne_of_mem_of_not_mem hd (by simpa using hpart)
  obtain ⟨heq, hrest⟩ :=
    delimited_inj (· == c) (hnot hpart) (hnot hpart') (by simp) (by simp) h
  exact ⟨String.toList_injective heq, (List.cons.inj hrest).2⟩

/-- The characters in front of which a word ends. -/
def endsWord (c : Char) : Bool := c == ' ' || c == ')'

/-- Nothing follows, or what follows ends a word. -/
def Stops (rest : List Char) : Prop := ∀ c ∈ rest.head?, endsWord c = true

theorem stops_nil : Stops [] := by simp [Stops]

theorem stops_cons {c : Char} (h : endsWord c = true) (rest : List Char) : Stops (c :: rest) := by simpa [Stops]

theorem endsWord_of_mem_textChars (x : Double) : ∀ c ∈ x.textChars, endsWord c = false := by
  intro c hc
  cases hfinite : x.isFinite with
  | true =>
    rcases Double.mem_textChars hfinite hc with hdigit | rfl | rfl
    · simp only [endsWord, Bool.or_eq_false_iff, beq_eq_false_iff_ne]
      constructor
      · rintro rfl
        simp at hdigit
      · rintro rfl
        simp at hdigit
    · rfl
    · rfl
  | false =>
    revert c
    rcases Double.textChars_of_not_isFinite hfinite with h | h | h <;>
    · rw [h]
      simp [endsWord]

theorem endsWord_of_mem_symbol {symbol : String} (h : isPlainSymbol symbol = true) :
    ∀ c ∈ symbol.toList, endsWord c = false := by
  obtain ⟨-, hspace, hparenthesis, -, -⟩ := isPlainSymbol_iff.mp h
  intro c hc
  simp only [endsWord, Bool.or_eq_false_iff, beq_eq_false_iff_ne]
  exact ⟨ne_of_mem_of_not_mem hc hspace, ne_of_mem_of_not_mem hc hparenthesis⟩

/-! ### Forms -/

/-- How the text of a tree is delimited. -/
inductive Form where
  | word
  | parenthesized
  | quoted

/-- The form of what starts with a character. -/
def Form.ofHead (c : Char) : Form := if c = '(' then .parenthesized else if c = '"' then .quoted else .word

def form : Node → Form
  | binary _ _ _ => .parenthesized
  | string _ => .quoted
  | _ => .word

theorem Form.ofHead_eq_word {c : Char} (hparenthesis : c ≠ '(') (hquote : c ≠ '"') : Form.ofHead c = .word := by
  rw [Form.ofHead, if_neg hparenthesis, if_neg hquote]

/-- The first character of a plain tree gives its form. -/
theorem exists_head {node : Node} (hplain : node.isPlain = true) :
    ∃ c rest, node.textChars = c :: rest ∧ Form.ofHead c = node.form := by
  cases node with
  | program _ => cases hplain
  | number x =>
    rw [textChars_number]
    rcases x.textChars_eq_nan_or_head with h | ⟨c, rest, htext, hc⟩
    · exact ⟨'N', _, h, rfl⟩
    · refine ⟨c, rest, htext, Form.ofHead_eq_word ?_ ?_⟩ <;>
      · rintro rfl
        revert hc
        decide
  | null => exact ⟨'n', _, rfl, rfl⟩
  | identifier symbol =>
    obtain ⟨hstart, -⟩ := isPlainSymbol_iff.mp hplain
    obtain ⟨c, rest, hsymbol, hc⟩ := startsSymbol_iff.mp hstart
    refine ⟨c, rest, (textChars_identifier symbol).trans hsymbol, Form.ofHead_eq_word ?_ ?_⟩ <;>
    · rintro rfl
      revert hc
      decide
  | binary left operator right => exact ⟨'(', _, textChars_binary left operator right, rfl⟩
  | string value => exact ⟨'"', _, textChars_string value, rfl⟩

/-- Plain trees at the start of one text have one form. -/
theorem form_eq {a b : Node} (ha : a.isPlain = true) (hb : b.isPlain = true) {rest rest' : List Char}
    (h : a.textChars ++ rest = b.textChars ++ rest') : a.form = b.form := by
  obtain ⟨c, cs, hcs, hformA⟩ := exists_head ha
  obtain ⟨d, ds, hds, hformB⟩ := exists_head hb
  rw [hcs, hds] at h
  obtain ⟨hhead, -⟩ := List.cons.inj h
  rw [← hformA, ← hformB, hhead]

/-! ### Leaves that are words -/

/-- The kind of the leaf that is written as a word. -/
def kindOfWord (chars : List Char) : Kind :=
  if chars = "null".toList then .nullLiteral
  else if chars = "NaN".toList then .numericLiteral
  else if startsSymbol chars then .identifier
  else .numericLiteral

theorem kindOfWord_textChars {node : Node} (hplain : node.isPlain = true) (hword : node.form = .word) :
    kindOfWord node.textChars = node.kind := by
  cases node with
  | program _ => cases hplain
  | number x =>
    rw [textChars_number]
    rcases x.textChars_eq_nan_or_head with h | ⟨c, rest, htext, hc⟩
    · rw [h]
      rfl
    · have hletter : startsSymbol (c :: rest) = false := by
        rcases hc with hc | rfl | rfl | rfl
        · exact startsSymbol_of_isDigit hc rest
        all_goals rfl
      have hnull : c :: rest ≠ "null".toList := by
        intro heq
        rw [heq] at hletter
        cases hletter
      rw [htext, kindOfWord, if_neg hnull, hletter]
      simp [kind]
  | null => rfl
  | identifier symbol =>
    obtain ⟨hstart, -, -, hnull, hnan⟩ := isPlainSymbol_iff.mp hplain
    rw [textChars_identifier, kindOfWord, if_neg fun h => hnull (String.toList_injective h),
      if_neg fun h => hnan (String.toList_injective h), if_pos hstart]
    rfl
  | binary _ _ _ => cases hword
  | string _ => cases hword

/-- The text of a plain word determines it. -/
theorem canonical_eq_of_word {a b : Node} (ha : a.isPlain = true) (hb : b.isPlain = true) (hwordA : a.form = .word)
    (hwordB : b.form = .word) (h : a.textChars = b.textChars) : a.canonical = b.canonical := by
  have hkind : a.kind = b.kind := by
    rw [← kindOfWord_textChars ha hwordA, h, kindOfWord_textChars hb hwordB]
  cases a with
  | program _ => cases ha
  | number x =>
    cases b with
    | number y =>
      rw [textChars_number, textChars_number] at h
      exact congrArg number (Double.canonical_eq_of_textChars h)
    | _ => cases hkind
  | null =>
    cases b with
    | null => rfl
    | _ => cases hkind
  | identifier symbol =>
    cases b with
    | identifier symbol' =>
      rw [textChars_identifier, textChars_identifier] at h
      exact congrArg identifier (String.toList_injective h)
    | _ => cases hkind
  | binary _ _ _ => cases hwordA
  | string _ => cases hwordA

theorem endsWord_of_mem {node : Node} (hplain : node.isPlain = true) (hword : node.form = .word) :
    ∀ c ∈ node.textChars, endsWord c = false := by
  cases node with
  | program _ => cases hplain
  | number x => exact (textChars_number x).symm ▸ endsWord_of_mem_textChars x
  | null => simp [textChars, writeText, endsWord]
  | identifier symbol => exact (textChars_identifier symbol).symm ▸ endsWord_of_mem_symbol hplain
  | binary _ _ _ => cases hword
  | string _ => cases hword

/-! ### Trees -/

/-- A plain word is told apart from all that stands at its place. -/
theorem word_inj {a b : Node} (ha : a.isPlain = true) (hb : b.isPlain = true) (hword : a.form = .word)
    {rest rest' : List Char} (hrest : Stops rest) (hrest' : Stops rest')
    (h : a.textChars ++ rest = b.textChars ++ rest') : a.canonical = b.canonical ∧ rest = rest' := by
  have hwordB : b.form = .word := (form_eq ha hb h).symm.trans hword
  obtain ⟨htext, hsame⟩ :=
    delimited_inj endsWord (endsWord_of_mem ha hword) (endsWord_of_mem hb hwordB) hrest hrest' h
  exact ⟨canonical_eq_of_word ha hb hword hwordB htext, hsame⟩

/-- The text of a plain tree shows the tree and where it ends, in front of all that can follow an operand. -/
theorem textChars_append_inj {a b : Node} (ha : a.isPlain = true) (hb : b.isPlain = true) {rest rest' : List Char}
    (hrest : Stops rest) (hrest' : Stops rest') (h : a.textChars ++ rest = b.textChars ++ rest') :
    a.canonical = b.canonical ∧ rest = rest' := by
  have hform := form_eq ha hb h
  induction a using induction generalizing b rest rest' with
  | program _ _ => cases ha
  | number _ => exact word_inj ha hb rfl hrest hrest' h
  | null => exact word_inj ha hb rfl hrest hrest' h
  | identifier _ => exact word_inj ha hb rfl hrest hrest' h
  | binary left operator right ihLeft ihRight =>
    cases b with
    | binary left' operator' right' =>
      simp only [isPlain, Bool.and_eq_true, Bool.not_eq_true'] at ha hb
      obtain ⟨⟨hleft, hoperator⟩, hright⟩ := ha
      obtain ⟨⟨hleft', hoperator'⟩, hright'⟩ := hb
      simp only [textChars_binary, List.cons_append, List.append_assoc, List.nil_append] at h
      -- each part ends where the next one starts
      obtain ⟨-, hparts⟩ := List.cons.inj h
      obtain ⟨hleftEq, hparts⟩ :=
        ihLeft hleft hleft' (stops_cons rfl _) (stops_cons rfl _) hparts (form_eq hleft hleft' hparts)
      obtain ⟨-, hparts⟩ := List.cons.inj hparts
      obtain ⟨hoperatorEq, hparts⟩ := separated_inj hoperator hoperator' hparts
      obtain ⟨hrightEq, hparts⟩ :=
        ihRight hright hright' (stops_cons rfl _) (stops_cons rfl _) hparts (form_eq hright hright' hparts)
      obtain ⟨-, hrestEq⟩ := List.cons.inj hparts
      exact ⟨by rw [canonical, canonical, hleftEq, hoperatorEq, hrightEq], hrestEq⟩
    | _ => cases hform
  | string value =>
    cases b with
    | string value' =>
      simp only [isPlain, Bool.not_eq_true'] at ha hb
      simp only [textChars_string, List.cons_append, List.append_assoc, List.nil_append] at h
      obtain ⟨-, hparts⟩ := List.cons.inj h
      obtain ⟨hvalue, hrestEq⟩ := separated_inj ha hb hparts
      exact ⟨by rw [hvalue], hrestEq⟩
    | _ => cases hform

/-- Plain trees with one canonical text are identical. -/
theorem identical_of_text {a b : Node} (ha : a.isPlain = true) (hb : b.isPlain = true) (h : a.text = b.text) :
    a.identical b = true := by
  have htext : a.textChars ++ [] = b.textChars ++ [] := congrArg (· ++ []) (String.ofList_injective h)
  exact (identical_iff a b).mpr (textChars_append_inj ha hb stops_nil stops_nil htext).1

/-- A plain tree with the delimiters of other parts in its texts. -/
def bracketedProduct (x : Double) : Node :=
  binary (binary (identifier "_(\"") "" (string " ) (")) ")(\"" (binary (number x) "*" null)

theorem identical_of_text_bracketedProduct :
    let a := bracketedProduct Double.nan
    let b := bracketedProduct ⟨true, 0x7FF0000000000001, by decide⟩
    a ≠ b ∧ a.isPlain = true ∧ b.isPlain = true ∧ a.text = b.text ∧ a.identical b = true := by
  intro a b
  have ha : a.isPlain = true := by decide
  have hb : b.isPlain = true := by decide
  have htext : a.text = b.text := congrArg String.ofList (by decide)
  exact ⟨by decide, ha, hb, htext, identical_of_text ha hb htext⟩

end Node

end SyntaxTree
