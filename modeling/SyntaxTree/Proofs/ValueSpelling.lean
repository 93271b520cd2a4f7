import SyntaxTree.Proofs.NumberLayout

/-!
The compact text of a value is a spelling of it. Strings are spelled with the escapes that JSON demands and
numbers in their layout; where there is room for the brackets the spelling means the value again, and where
there is not, the fault is that of one bracket too many and no other.
-/

namespace SyntaxTree.Json

/-! ### Strings -/

theorem codeUnit_control : ∀ n < 32,
    codeUnit ['0', '0', Nat.digitChar (n / 16), Nat.digitChar (n % 16)] = .ok n := by
  decide

/-- A character with the escape that JSON demands, if any. -/
def spelledChar (c : Char) : CharSpelling :=
  if hquote : c = '"' then .letter '"' '"' (by decide)
  else if hbackslash : c = '\\' then .letter '\\' '\\' (by decide)
  else if c = '\n' then .letter 'n' '\n' (by decide)
  else if c = '\r' then .letter 'r' '\r' (by decide)
  else if c = '\t' then .letter 't' '\t' (by decide)
  else if c.toNat = 8 then .letter 'b' (Char.ofNat 8) (by decide)
  else if c.toNat = 12 then .letter 'f' (Char.ofNat 12) (by decide)
  else if hcontrol : c.toNat < 32 then
    .unit '0' '0' (Nat.digitChar (c.toNat / 16)) (Nat.digitChar (c.toNat % 16)) c.toNat
      (codeUnit_control c.toNat hcontrol)
  else .raw c ⟨hquote, hbackslash, Nat.le_of_not_lt hcontrol⟩

/-- The escape of a character and what it stands for, told by the same cases as the escape itself. -/
theorem spelledChar_spec (c : Char) : (spelledChar c).chars = escapedChar c ∧ ∀ spelled,
    CharSpelling.decode (spelledChar c :: spelled) = (do .ok (c :: (← CharSpelling.decode spelled))) := by
  by_cases hquote : c = '"'
  · rw [spelledChar, dif_pos hquote, escapedChar, if_pos hquote, hquote]
    exact ⟨rfl, fun spelled => rfl⟩
  by_cases hbackslash : c = '\\'
  · rw [spelledChar, dif_neg hquote, dif_pos hbackslash, escapedChar, if_neg hquote, if_pos hbackslash, hbackslash]
    exact ⟨rfl, fun spelled => rfl⟩
  rw [spelledChar, dif_neg hquote, dif_neg hbackslash, escapedChar, if_neg hquote, if_neg hbackslash]
  by_cases hnewline : c = '\n'
  · rw [if_pos hnewline, if_pos hnewline, hnewline]
    exact ⟨rfl, fun spelled => rfl⟩
  rw [if_neg hnewline, if_neg hnewline]
  by_cases hreturn : c = '\r'
  · rw [if_pos hreturn, if_pos hreturn, hreturn]
    exact ⟨rfl, fun spelled => rfl⟩
  rw [if_neg hreturn, if_neg hreturn]
  by_cases htab : c = '\t'
  · rw [if_pos htab, if_pos htab, htab]
    exact ⟨rfl, fun spelled => rfl⟩
  rw [if_neg htab, if_neg htab]
  by_cases hbackspace : c.toNat = 8
  · have hc : Char.ofNat 8 = c := Char.toNat_inj.mp hbackspace.symm
    rw [if_pos hbackspace, if_pos hbackspace]
    refine ⟨rfl, ?_⟩
    intro spelled
    rw [CharSpelling.decode, hc]
  rw [if_neg hbackspace, if_neg hbackspace]
  by_cases hformFeed : c.toNat = 12
  · have hc : Char.ofNat 12 = c := Char.toNat_inj.mp hformFeed.symm
    rw [if_pos hformFeed, if_pos hformFeed]
    refine ⟨rfl, ?_⟩
    intro spelled
    rw [CharSpelling.decode, hc]
  rw [if_neg hformFeed, if_neg hformFeed]
  by_cases hcontrol : c.toNat < 32
  · have hlow : ¬isLowSurrogate c.toNat = true := by
      simp only [isLowSurrogate, decide_eq_true_eq]
      omega
    have hhigh : ¬isHighSurrogate c.toNat = true := by
      simp only [isHighSurrogate, decide_eq_true_eq]
      omega
    rw [dif_pos hcontrol, if_pos hcontrol]
    refine ⟨rfl, ?_⟩
    intro spelled
    rw [decode_unit _ _ hhigh, if_neg hlow, Char.ofNat_toNat]
  · rw [dif_neg hcontrol, if_neg hcontrol]
    exact ⟨rfl, fun spelled => rfl⟩

/-- A string with the escapes that JSON demands. -/
def spelledString (text : String) : StringSpelling := ⟨text.toList.map spelledChar⟩

theorem write_spelledString (text : String) (rest : List Char) :
    (spelledString text).write rest = writeString text rest := by
  have hchars : (text.toList.map spelledChar).flatMap CharSpelling.chars = text.toList.flatMap escapedChar := by
    rw [List.flatMap_map]
    exact List.flatMap_congr fun c _ => (spelledChar_spec c).1
  rw [StringSpelling.write, StringSpelling.writeOpened, spelledString, hchars, writeString]

theorem meaning_spelledString (text : String) : (spelledString text).meaning = .ok text := by
  have hdecode : ∀ cs : List Char, CharSpelling.decode (cs.map spelledChar) = .ok cs := by
    intro cs
    induction cs with
    | nil => rfl
    | cons c cs ih => rw [List.map_cons, (spelledChar_spec c).2, ih, ok_bind]
  rw [StringSpelling.meaning, spelledString, hdecode, ok_bind, String.ofList_toList]

/-! ### Integers -/

def integerText (n : Int) : NumberText := { negative := decide (n < 0), whole := Nat.toDigits 10 n.natAbs }

theorem integerText_wellFormed (n : Int) : (integerText n).WellFormed where
  whole := isDigit_toDigits n.natAbs
  noLeadingZero := by
    intro c cs hwhole
    by_cases hzero : n.natAbs = 0
    · rw [integerText, hzero] at hwhole
      cases hwhole
    · exact toDigits_ne_zero_cons hzero _ hwhole
  fraction := by simp [integerText]
  exponent := by simp [integerText]

def spelledInteger (n : Int) : NumberSpelling := .ofText (integerText n) false (integerText_wellFormed n)

theorem write_spelledInteger (n : Int) (rest : List Char) : (spelledInteger n).write rest = writeInteger n rest := by
  rw [writeInteger, List.append_assoc]
  rfl

theorem value_spelledInteger {n : Int} (h : -0x8000000000000000 ≤ n ∧ n < 0x10000000000000000) :
    (spelledInteger n).parts.value = .ok (.integer n) := by
  have hinteger : (spelledInteger n).parts.integer? = some n := by
    simp only [NumberText.integer?, spelledInteger, NumberSpelling.ofText, integerText,
      Nat.ofDigitChars_ten_toDigits, true_and, if_true]
    by_cases hsign : n < 0
    · rw [if_pos (by simpa using hsign), if_pos (by omega)]
      congr 1
      omega
    · rw [if_neg (by simpa using hsign), if_pos (by omega)]
      congr 1
      omega
  rw [NumberText.value, hinteger]

/-! ### Values -/

namespace Value

/-- What holds of scalars, and of arrays and objects of values of which it holds, holds of all values. -/
@[elab_as_elim]
theorem induction {P : Value → Prop} (null : P .null) (bool : ∀ value, P (.bool value))
    (integer : ∀ n, P (.integer n)) (float : ∀ x, P (.float x)) (string : ∀ text, P (.string text))
    (array : ∀ items, (∀ item ∈ items, P item) → P (.array items))
    (object : ∀ members, (∀ member ∈ members, P member.2) → P (.object members)) (v : Value) : P v := by
  cases v with
  | null => exact null
  | bool value => exact bool value
  | integer n => exact integer n
  | float x => exact float x
  | string text => exact string text
  | array items =>
    exact array items fun item h => induction null bool integer float string array object item
  | object members =>
    exact object members fun member h => induction null bool integer float string array object member.2
termination_by v
decreasing_by
  · have hsize : sizeOf item < sizeOf items := List.sizeOf_lt_of_mem h
    simp only [Value.array.sizeOf_spec]
    omega
  · have hsize : sizeOf member < sizeOf members := List.sizeOf_lt_of_mem h
    cases member
    simp only [Value.object.sizeOf_spec, Prod.mk.sizeOf_spec] at *
    omega

mutual

/-- The compact text of a value as a spelling. Numbers that are not finite are written as null. -/
def spelling : Value → Spelling
  | null => .null
  | bool value => .bool value
  | integer n => .number (spelledInteger n)
  | float x => if h : x.isFinite = true then .number (x.spelling h) else .null
  | string text => .string (spelledString text)
  | array items => .array {} (itemsSpelling items)
  | object members => .object {} (membersSpelling members)

def itemsSpelling : List Value → List (Around × Spelling)
  | [] => []
  | item :: items => ({}, item.spelling) :: itemsSpelling items

def membersSpelling : List (String × Value) → List (Label × Spelling)
  | [] => []
  | (name, value) :: members => ({ name := spelledString name }, value.spelling) :: membersSpelling members

end

theorem write_spelling (v : Value) (rest : List Char) : v.spelling.write rest = v.write rest := by
  induction v using Value.induction generalizing rest with
  | null => rfl
  | bool value => cases value <;> rfl
  | integer n => exact write_spelledInteger n rest
  | float x =>
    rw [spelling, write]
    split
    · rename_i h
      exact x.write_spelling h rest
    · rename_i h
      rw [Double.jsonChars, if_neg h]
      rfl
  | string text => exact write_spelledString text rest
  | array items ih =>
    have hitems : ∀ first rest, Spelling.writeItems first (itemsSpelling items) rest =
        writeItems first items rest := by
      induction items with
      | nil => exact fun _ _ => rfl
      | cons item items ih' =>
        intro first rest
        rw [itemsSpelling, Spelling.writeItems, writeItems,
          ← ih' (fun item h => ih item (List.mem_cons_of_mem _ h)) false rest, ← ih item List.mem_cons_self]
        rfl
    rw [spelling, Spelling.write, hitems, write]
    rfl
  | object members ih =>
    have hmembers : ∀ first rest, Spelling.writeMembers first (membersSpelling members) rest =
        writeMembers first members rest := by
      induction members with
      | nil => exact fun _ _ => rfl
      | cons member members ih' =>
        obtain ⟨name, v⟩ := member
        intro first rest
        rw [membersSpelling, Spelling.writeMembers, writeMembers,
          ← ih' (fun member h => ih member (List.mem_cons_of_mem _ h)) false rest,
          ← ih (name, v) List.mem_cons_self, ← write_spelledString]
        rfl
    rw [spelling, Spelling.write, hmembers, write]
    rfl

theorem text_eq_textIn (v : Value) : v.text = v.spelling.textIn {} := by
  rw [text, Spelling.textIn, write_spelling]
  rfl

mutual

/-- How many brackets are open inside each other in the text of a value. -/
def depth : Value → Nat
  | array items => itemsDepth items + 1
  | object members => membersDepth members + 1
  | _ => 0

def itemsDepth : List Value → Nat
  | [] => 0
  | item :: items => max item.depth (itemsDepth items)

def membersDepth : List (String × Value) → Nat
  | [] => 0
  | (_, value) :: members => max value.depth (membersDepth members)

end

mutual

/-- Whether the numbers in a value are such that reading gives them: integers of 64 bits and finite numbers. -/
def IsReadable : Value → Prop
  | integer n => -0x8000000000000000 ≤ n ∧ n < 0x10000000000000000
  | float x => x.isFinite = true
  | array items => ItemsReadable items
  | object members => MembersReadable members
  | _ => True

def ItemsReadable : List Value → Prop
  | [] => True
  | item :: items => item.IsReadable ∧ ItemsReadable items

def MembersReadable : List (String × Value) → Prop
  | [] => True
  | (_, value) :: members => value.IsReadable ∧ MembersReadable members

end

theorem depth_spelling (v : Value) : v.spelling.depth = v.depth := by
  induction v using Value.induction with
  | null => rfl
  | bool value => rfl
  | integer n => rfl
  | float x =>
    rw [spelling]
    split <;> rfl
  | string text => rfl
  | array items ih =>
    rw [spelling, Spelling.depth, depth]
    congr 1
    induction items with
    | nil => rfl
    | cons item items ih' =>
      rw [itemsSpelling, Spelling.itemsDepth, itemsDepth, ih item List.mem_cons_self,
        ih' fun item h => ih item (List.mem_cons_of_mem _ h)]
  | object members ih =>
    rw [spelling, Spelling.depth, depth]
    congr 1
    induction members with
    | nil => rfl
    | cons member members ih' =>
      rw [membersSpelling, Spelling.membersDepth, membersDepth, ih member List.mem_cons_self,
        ih' fun member h => ih member (List.mem_cons_of_mem _ h)]

end Value

end SyntaxTree.Json
