import SyntaxTree.Json.Load

/-!
The grammar of JSON as data. A spelling is a JSON value with every choice its text leaves open: blanks
between tokens, the escape of each character, the sign and the mark of an exponent. It has a text, and it
has a meaning: the value that its text stands for, or the fault of a number that is too large, of half a
surrogate pair, or of one bracket too many.
-/

namespace SyntaxTree.Json

theorem isBlank_of_mem_nil : ∀ c ∈ ([] : List Char), isBlank c = true := by simp

/-- Blanks between two tokens. -/
structure Blanks where
  chars : List Char := []
  isBlank_of_mem : ∀ c ∈ chars, isBlank c = true := by exact isBlank_of_mem_nil

/-! ### Numbers -/

def IsDigits (cs : List Char) : Prop := cs ≠ [] ∧ ∀ c ∈ cs, c.isDigit = true

/-- What the grammar asks of the parts of a number. -/
structure NumberText.WellFormed (n : NumberText) : Prop where
  whole : IsDigits n.whole
  noLeadingZero : ∀ c cs, n.whole ≠ '0' :: c :: cs
  fraction : ∀ c ∈ n.fraction, c.isDigit = true
  exponent : ∀ e ∈ n.exponent, IsDigits e.2

/-- A number with the mark of its exponent; a plus sign may stand in front of an exponent that is not
negative. -/
structure NumberSpelling where
  parts : NumberText
  mark : Char
  plus : Bool
  wellFormed : parts.WellFormed
  mark_eq : mark = 'e' ∨ mark = 'E'

namespace NumberSpelling

/-- Spells a number with a small mark. -/
def ofText (parts : NumberText) (plus : Bool) (wellFormed : parts.WellFormed) : NumberSpelling where
  parts := parts
  mark := 'e'
  plus := plus
  wellFormed := wellFormed
  mark_eq := .inl rfl

/-- The point and the digits after it. -/
def writeFraction (fraction rest : List Char) : List Char :=
  if fraction = [] then rest else '.' :: (fraction ++ rest)

/-- The mark, the sign and the digits of the exponent. -/
def writeExponent (n : NumberSpelling) (rest : List Char) : List Char :=
  match n.parts.exponent with
  | none => rest
  | some (true, digits) => n.mark :: '-' :: (digits ++ rest)
  | some (false, digits) => n.mark :: (if n.plus then '+' :: (digits ++ rest) else digits ++ rest)

/-- Writes the number without its sign in front of `rest`. -/
def writeUnsigned (n : NumberSpelling) (rest : List Char) : List Char :=
  n.parts.whole ++ writeFraction n.parts.fraction (n.writeExponent rest)

def write (n : NumberSpelling) (rest : List Char) : List Char :=
  Double.signChars n.parts.negative ++ n.writeUnsigned rest

end NumberSpelling

/-! ### Strings -/

/-- One way to write a character, or half of one, inside a string. -/
inductive CharSpelling where
  | raw (c : Char) (isRaw : c ≠ '"' ∧ c ≠ '\\' ∧ 0x20 ≤ c.toNat)
  | letter (l c : Char) (stands : letterEscape? l = some c)
  | unit (a b c d : Char) (unit : Nat) (stands : codeUnit [a, b, c, d] = .ok unit)

namespace CharSpelling

/-- The characters between the quotes. -/
def chars : CharSpelling → List Char
  | raw c _ => [c]
  | letter l _ _ => ['\\', l]
  | unit a b c d _ _ => ['\\', 'u', a, b, c, d]

/-- The characters that a string stands for. The first half of a surrogate pair needs the second half
right behind it, which must not stand alone. -/
def decode : List CharSpelling → Except Fault (List Char)
  | [] => .ok []
  | raw c _ :: spelled => do .ok (c :: (← decode spelled))
  | letter _ c _ :: spelled => do .ok (c :: (← decode spelled))
  | unit _ _ _ _ high _ :: spelled =>
    if isLowSurrogate high then .error .malformed
    else if isHighSurrogate high then
      match spelled with
      | unit _ _ _ _ low _ :: spelled =>
        if isLowSurrogate low then do
          .ok (Char.ofNat (0x10000 + (high - 0xD800) * 0x400 + (low - 0xDC00)) :: (← decode spelled))
        else .error .malformed
      | _ => .error .malformed
    else do .ok (Char.ofNat high :: (← decode spelled))

end CharSpelling

/-- A string, character by character. -/
structure StringSpelling where
  chars : List CharSpelling

namespace StringSpelling

/-- Writes what follows the opening quote in front of `rest`. -/
def writeOpened (s : StringSpelling) (rest : List Char) : List Char :=
  s.chars.flatMap CharSpelling.chars ++ '"' :: rest

def write (s : StringSpelling) (rest : List Char) : List Char := '"' :: s.writeOpened rest

def meaning (s : StringSpelling) : Except Fault String := do
  .ok (String.ofList (← CharSpelling.decode s.chars))

end StringSpelling

/-! ### Values -/

/-- The blanks around an item of an array. -/
structure Around where
  before : Blanks := {}
  after : Blanks := {}

/-- The name of a member and the blanks around the member's parts. -/
structure Label where
  before : Blanks := {}
  name : StringSpelling
  beforeColon : Blanks := {}
  afterColon : Blanks := {}
  after : Blanks := {}

/-- A JSON value as it is spelled. The blanks of an array or an object follow its opening bracket. -/
inductive Spelling where
  | null
  | bool (value : Bool)
  | number (number : NumberSpelling)
  | string (string : StringSpelling)
  | array (blanks : Blanks) (items : List (Around × Spelling))
  | object (blanks : Blanks) (members : List (Label × Spelling))

namespace Spelling

mutual

/-- Writes a spelling in front of `rest`. -/
def write : Spelling → List Char → List Char
  | null, rest => 'n' :: 'u' :: 'l' :: 'l' :: rest
  | bool true, rest => 't' :: 'r' :: 'u' :: 'e' :: rest
  | bool false, rest => 'f' :: 'a' :: 'l' :: 's' :: 'e' :: rest
  | number n, rest => n.write rest
  | string s, rest => s.write rest
  | array blanks items, rest => '[' :: (blanks.chars ++ writeItems true items (']' :: rest))
  | object blanks members, rest => '{' :: (blanks.chars ++ writeMembers true members ('}' :: rest))

def writeItems (first : Bool) : List (Around × Spelling) → List Char → List Char
  | [], rest => rest
  | (around, s) :: items, rest =>
    writeComma first (around.before.chars ++ s.write (around.after.chars ++ writeItems false items rest))

def writeMembers (first : Bool) : List (Label × Spelling) → List Char → List Char
  | [], rest => rest
  | (label, s) :: members, rest =>
    writeComma first (label.before.chars ++ label.name.write (label.beforeColon.chars ++
      ':' :: (label.afterColon.chars ++ s.write (label.after.chars ++ writeMembers false members rest))))

end

def text (s : Spelling) : String := String.ofList (s.write [])

mutual

/-- How many brackets are open inside each other. -/
def depth : Spelling → Nat
  | array _ items => itemsDepth items + 1
  | object _ members => membersDepth members + 1
  | _ => 0

def itemsDepth : List (Around × Spelling) → Nat
  | [] => 0
  | (_, s) :: items => max s.depth (itemsDepth items)

def membersDepth : List (Label × Spelling) → Nat
  | [] => 0
  | (_, s) :: members => max s.depth (membersDepth members)

end

mutual

/-- The value that a spelling stands for where there is room for `room` brackets inside each other. -/
def meaning : Nat → Spelling → Except Fault Value
  | _, null => .ok .null
  | _, bool value => .ok (.bool value)
  | _, number n => n.parts.value
  | _, string s => do .ok (.string (← s.meaning))
  | 0, array _ _ => .error .tooDeep
  | 0, object _ _ => .error .tooDeep
  | room + 1, array _ items => do .ok (.array (← itemsMeaning room items))
  | room + 1, object _ members => do .ok (.object (← membersMeaning room members))

def itemsMeaning (room : Nat) : List (Around × Spelling) → Except Fault (List Value)
  | [] => .ok []
  | (_, s) :: items => do
    let v ← s.meaning room
    .ok (v :: (← itemsMeaning room items))

def membersMeaning (room : Nat) : List (Label × Spelling) → Except Fault (List (String × Value))
  | [] => .ok []
  | (label, s) :: members => do
    let name ← label.name.meaning
    let v ← s.meaning room
    .ok ((name, v) :: (← membersMeaning room members))

end

end Spelling

end SyntaxTree.Json
