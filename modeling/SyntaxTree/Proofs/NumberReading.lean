import SyntaxTree.Proofs.LongNumbers
import SyntaxTree.Proofs.NumberPlace
import SyntaxTree.Proofs.NumberTexts

/-!
What a number's place accepts. A number there is rounded to the nearest binary64 number, and one that is too large is
a fault of the text; three names stand for what is not finite, and all else is refused for what it is. An integer is
the same number whether it is written alone, with a zero after its point or with a zero for its exponent.
-/

namespace SyntaxTree

open Json

/-! ### Values that stand in a place -/

namespace Json.Spelling

/-- A number that rounds to a finite binary64 number. -/
def IsFiniteNumber (s : Spelling) : Prop :=
  ∃ (n : NumberSpelling) (x : Double), s = .number n ∧ Double.RoundsTo n.parts.negative n.parts.exact x ∧
    x.isFinite = true

/-- A string that stands for the name of what is not finite. -/
def IsName (s : Spelling) : Prop :=
  ∃ (string : StringSpelling) (name : String), s = .string string ∧ string.meaning = .ok name ∧
    name ∈ ["NaN", "+Inf", "-Inf"]

/-- Whether a spelling is of a kind that numbers are written in. -/
def isNumeric : Spelling → Bool
  | number _ | string _ => true
  | _ => false

theorem isFiniteNumber_number (n : NumberSpelling) :
    (number n).IsFiniteNumber ↔ n.parts.double.isFinite = true := by
  constructor
  · rintro ⟨n', x, heq, hx, hfinite⟩
    cases heq
    exact (NumberText.isFinite_double_iff n.wellFormed hx).mpr hfinite
  · intro hfinite
    obtain ⟨x, hx⟩ := n.parts.exists_roundsTo
    exact ⟨n, x, rfl, hx, (NumberText.isFinite_double_iff n.wellFormed hx).mp hfinite⟩

theorem isName_string (string : StringSpelling) :
    (Spelling.string string).IsName ↔ ∃ name, string.meaning = .ok name ∧ name ∈ ["NaN", "+Inf", "-Inf"] := by
  constructor
  · rintro ⟨string', name, heq, h⟩
    cases heq
    exact ⟨name, h⟩
  · rintro ⟨name, h⟩
    exact ⟨string, name, rfl, h⟩

theorem not_of_isNumeric {s : Spelling} (h : s.isNumeric = false) : ¬s.IsFiniteNumber ∧ ¬s.IsName := by
  constructor
  · rintro ⟨n, x, rfl, -⟩
    cases h
  · rintro ⟨string, name, rfl, -⟩
    cases h

/-- Any other value is refused as one that is no number. -/
theorem numberOfValue_of_meaning {s : Spelling} (hs : s.isNumeric = false) {room : Nat} {v : Value}
    (h : s.meaning room = .ok v) : numberOfValue v = .error (.content .notNumeric) := by
  cases s with
  | number n => cases hs
  | string string => cases hs
  | null =>
    rw [meaning] at h
    cases h
    rfl
  | bool value =>
    rw [meaning] at h
    cases h
    rfl
  | array blanks items =>
    rw [meaning_array] at h
    obtain ⟨inner, -, h⟩ := bind_eq_ok.mp h
    obtain ⟨values, -, h⟩ := bind_eq_ok.mp h
    cases h
    rfl
  | object blanks members =>
    rw [meaning_object] at h
    obtain ⟨inner, -, h⟩ := bind_eq_ok.mp h
    obtain ⟨values, -, h⟩ := bind_eq_ok.mp h
    cases h
    rfl

end Json.Spelling

/-- There are three names, each for a number that is not finite. -/
theorem Double.ofName?_cases (name : String) :
    (name ∈ ["NaN", "+Inf", "-Inf"] ∧ ∃ x, ofName? name = some x ∧ x.isFinite = false) ∨
    (name ∉ ["NaN", "+Inf", "-Inf"] ∧ ofName? name = none) := by
  by_cases hnan : name = "NaN"
  · subst hnan
    exact .inl ⟨by decide, _, rfl, rfl⟩
  · by_cases hplus : name = "+Inf"
    · subst hplus
      exact .inl ⟨by decide, _, rfl, rfl⟩
    · by_cases hminus : name = "-Inf"
      · subst hminus
        exact .inl ⟨by decide, _, rfl, rfl⟩
      · refine .inr ⟨by simp [hnan, hplus, hminus], ?_⟩
        rw [ofName?, if_neg hnan, if_neg hplus, if_neg hminus]

/-! ### Room for brackets -/

theorem Enclosure.depth_fill (e : Enclosure) (s : Spelling) : s.depth + 1 ≤ (e.fill s).depth := by
  cases e with
  | members blanks before label after =>
    rw [fill, Spelling.depth]
    apply Nat.succ_le_succ
    exact Spelling.membersDepth_le_iff.mp le_rfl (label, s) (by simp)
  | items blanks before around after =>
    rw [fill, Spelling.depth]
    apply Nat.succ_le_succ
    exact Spelling.itemsDepth_le_iff.mp le_rfl (around, s) (by simp)

theorem depth_enclosed (enclosures : List Enclosure) (s : Spelling) :
    s.depth + enclosures.length ≤ (enclosed enclosures s).depth := by
  induction enclosures with
  | nil => exact le_rfl
  | cons e es ih =>
    calc s.depth + (es.length + 1) ≤ (enclosed es s).depth + 1 := Nat.succ_le_succ ih
      _ ≤ (enclosed (e :: es) s).depth := e.depth_fill _

namespace NumberSite

/-! ### Numbers, names and all else -/

section

variable (site : NumberSite)

/-- A number is the rounded one in the tree, and too large if that is infinite. -/
theorem load_number (n : NumberSpelling) : site.load (.number n) =
    if n.parts.double.isFinite then .ok (site.tree n.parts.double) else .error .malformed := by
  obtain ⟨room, -, hload⟩ := site.load_eq
  have hvalue : (do numberOfValue (← (Spelling.number n).meaning room)) =
      if n.parts.double.isFinite then .ok n.parts.double else .error .malformed := by
    rw [Spelling.meaning]
    exact NumberText.numberOfValue_value_eq n.wellFormed
  rw [hload, ← bind_assoc, hvalue]
  split <;> rfl

/-- A string is the number that it names, and of no use if it names none. -/
theorem load_string {string : StringSpelling} {name : String} (h : string.meaning = .ok name) :
    site.load (.string string) = match Double.ofName? name with
      | some x => .ok (site.tree x)
      | none => .error (.content (.invalidValue (.string name) .number)) := by
  obtain ⟨room, -, hload⟩ := site.load_eq
  rw [hload, Spelling.meaning, h, ok_bind, ok_bind, numberOfValue]
  cases Double.ofName? name <;> rfl

/-- What nests no deeper than a text may is read by itself before it is judged. -/
theorem load_of_maxOpen {s : Spelling} (h : maxOpen (site.text s) ≤ 127) : site.load s = (do
    let v ← Value.load 127 (s.textIn {})
    .ok (site.tree (← numberOfValue v))) := by
  obtain ⟨room, hroom, hload⟩ := site.load_eq
  have hdepth : s.depth + site.enclosures.length ≤ maxDepth := by
    rw [text, maxOpen_textIn] at h
    exact (depth_enclosed _ s).trans h
  have hmeaning : s.meaning room = s.meaning 127 :=
    Spelling.meaning_of_depth_le (by omega) ((Nat.le_add_right _ _).trans hdepth)
  rw [hload, Value.load_textIn, hmeaning]

/-- What is neither a number nor a string never loads. -/
theorem exists_fault_of_isNumeric {s : Spelling} (hs : s.isNumeric = false) : ∃ fault, site.load s = .error fault := by
  obtain ⟨room, -, hload⟩ := site.load_eq
  rw [hload]
  cases hmeaning : s.meaning room with
  | error fault => exact ⟨fault, rfl⟩
  | ok v =>
    rw [ok_bind, Spelling.numberOfValue_of_meaning hs hmeaning]
    exact ⟨_, rfl⟩

/-- What loads is a finite number or a name of what is not, and anything else has a fault. -/
theorem load_cases (s : Spelling) :
    (s.IsFiniteNumber ∧ ∃ x, x.isFinite = true ∧ site.load s = .ok (site.tree x)) ∨
    (s.IsName ∧ ∃ x, x.isFinite = false ∧ site.load s = .ok (site.tree x)) ∨
    (¬s.IsFiniteNumber ∧ ¬s.IsName ∧ ∃ fault, site.load s = .error fault) := by
  cases hs : s.isNumeric with
  | false =>
    obtain ⟨hnumber, hname⟩ := Spelling.not_of_isNumeric hs
    exact .inr (.inr ⟨hnumber, hname, site.exists_fault_of_isNumeric hs⟩)
  | true =>
    cases s with
    | number n =>
      rw [Spelling.isFiniteNumber_number, load_number]
      by_cases h : n.parts.double.isFinite = true
      · exact .inl ⟨h, n.parts.double, h, if_pos h⟩
      · exact .inr (.inr ⟨h, nofun, .malformed, if_neg h⟩)
    | string string =>
      rw [Spelling.isName_string]
      cases hmeaning : string.meaning with
      | error fault =>
        obtain ⟨room, -, hload⟩ := site.load_eq
        refine .inr (.inr ⟨nofun, nofun, fault, ?_⟩)
        rw [hload, Spelling.meaning, hmeaning]
        rfl
      | ok name =>
        rw [site.load_string hmeaning]
        rcases Double.ofName?_cases name with ⟨hname, x, hx, hfinite⟩ | ⟨hname, hnone⟩
        · exact .inr (.inl ⟨⟨name, rfl, hname⟩, x, hfinite, by rw [hx]⟩)
        · refine .inr (.inr ⟨nofun, ?_, _, by rw [hnone]⟩)
          rintro ⟨name', heq, hname'⟩
          cases heq
          exact hname hname'
    | _ => cases hs

end

end NumberSite

/-! ### The number in the tree -/

theorem Puts.injective {k : Kind} {name : String} {place : Place} {put : place.Content → Node}
    (h : Puts k name place put) : Function.Injective put := by
  cases h with
  | value => exact fun _ _ heq => Node.number.inj heq
  | body => exact fun _ _ heq => Node.program.inj heq
  | left right operator => exact fun _ _ heq => (Node.binary.inj heq).1
  | right left operator => exact fun _ _ heq => (Node.binary.inj heq).2.2

theorem Leads.injective {place : Place} {positions : List Position} {content : Double → place.Content}
    (h : Leads place positions content) : Function.Injective content := by
  induction h with
  | number => exact Function.injective_id
  | field hput hposition h ih => exact hput.injective.comp ih
  | statement before after h ih =>
    intro x y heq
    exact ih (List.cons.inj (List.append_cancel_left heq)).1

theorem RootLeads.injective {root : Option Kind} {positions : List Position} {tree : Double → Node}
    (h : RootLeads root positions tree) : Function.Injective tree := by
  cases h with
  | node h => exact h.injective
  | record hput hposition h => exact hput.injective.comp h.injective

namespace NumberSite

section

variable (site : NumberSite)

/-- The tree shows which number was loaded. -/
theorem tree_injective : Function.Injective site.tree := site.leads.injective

/-- What is neither a number nor a string and can be read is refused as one that is no number. -/
theorem load_of_isNumeric {s : Spelling} (hs : s.isNumeric = false) (hopen : maxOpen (site.text s) ≤ 127) {v : Value}
    (hv : Value.load 127 (s.textIn {}) = .ok v) : site.load s = .error (.content .notNumeric) := by
  have hrefused : numberOfValue v = .error (.content .notNumeric) := by
    rw [Value.load_textIn] at hv
    exact Spelling.numberOfValue_of_meaning hs hv
  rw [site.load_of_maxOpen hopen, hv, ok_bind, hrefused]
  rfl

theorem load_of_overflow {n : NumberSpelling} {x : Double}
    (hx : Double.RoundsTo n.parts.negative n.parts.exact x) (hinfinite : x.isFinite = false) :
    site.load (.number n) = .error .malformed := by
  have hlarge : ¬n.parts.double.isFinite = true := by
    rw [NumberText.isFinite_double_iff n.wellFormed hx, hinfinite]
    exact nofun
  rw [load_number, if_neg hlarge]

theorem load_of_not_mem {string : StringSpelling} {name : String} (hmeaning : string.meaning = .ok name)
    (hname : name ∉ ["NaN", "+Inf", "-Inf"]) :
    site.load (.string string) = .error (.content (.invalidValue (.string name) .number)) := by
  rcases Double.ofName?_cases name with ⟨hmem, -⟩ | ⟨-, hnone⟩
  · exact absurd hmem hname
  · rw [site.load_string hmeaning, hnone]

/-- A tree that is loaded has a number in the place, which is finite if it was written as a number. -/
theorem cases_of_load {s : Spelling} {tree : Node} (h : site.load s = .ok tree) : ∃ x, tree = site.tree x ∧
    ((s.IsFiniteNumber ∧ x.isFinite = true) ∨ (s.IsName ∧ x.isFinite = false)) := by
  rcases site.load_cases s with ⟨hnumber, x, hfinite, hx⟩ | ⟨hname, x, hinfinite, hx⟩ | ⟨-, -, fault, hfault⟩
  · exact ⟨x, Except.ok.inj (h.symm.trans hx), .inl ⟨hnumber, hfinite⟩⟩
  · exact ⟨x, Except.ok.inj (h.symm.trans hx), .inr ⟨hname, hinfinite⟩⟩
  · rw [hfault] at h
    cases h

/-- What loads is a number that rounds to a finite one or the name of one that is not, and the number that is loaded is
finite exactly in the first case. A number that is too large is a fault of the text. Any other string, and what is
neither a number nor a string, is refused for its content if it can be read at all. -/
theorem accepted_values (s : Spelling) :
    ((∃ tree, site.load s = .ok tree) ↔ s.IsFiniteNumber ∨ s.IsName) ∧
    (∀ tree, site.load s = .ok tree → ∃ x, tree = site.tree x) ∧
    (∀ x, site.load s = .ok (site.tree x) → (x.isFinite = true ↔ ∃ n, s = .number n)) ∧
    (∀ n x, s = .number n → Double.RoundsTo n.parts.negative n.parts.exact x → x.isFinite = false →
      site.load s = .error .malformed) ∧
    (∀ string name, s = .string string → string.meaning = .ok name → name ∉ ["NaN", "+Inf", "-Inf"] →
      site.load s = .error (.content (.invalidValue (.string name) .number))) ∧
    (s = .null ∨ (∃ value, s = .bool value) ∨
      (s.isScalar = false ∧ maxOpen (site.text s) ≤ 127 ∧ ∃ v, Value.load 127 (s.textIn {}) = .ok v) →
      site.load s = .error (.content .notNumeric)) := by
  refine ⟨?_, ?_, ?_, ?_, ?_, ?_⟩
  · constructor
    · rintro ⟨tree, htree⟩
      obtain ⟨x, -, hcase⟩ := site.cases_of_load htree
      exact hcase.imp And.left And.left
    · intro h
      rcases site.load_cases s with ⟨-, x, -, hx⟩ | ⟨-, x, -, hx⟩ | ⟨hnumber, hname, -⟩
      · exact ⟨_, hx⟩
      · exact ⟨_, hx⟩
      · exact absurd h (not_or.mpr ⟨hnumber, hname⟩)
  · intro tree htree
    obtain ⟨x, hx, -⟩ := site.cases_of_load htree
    exact ⟨x, hx⟩
  · intro x hload
    obtain ⟨y, hy, hcase⟩ := site.cases_of_load hload
    obtain rfl : x = y := site.tree_injective hy
    rcases hcase with ⟨⟨n, -, hn, -⟩, hfinite⟩ | ⟨⟨string, -, hstring, -⟩, hinfinite⟩
    · exact ⟨fun _ => ⟨n, hn⟩, fun _ => hfinite⟩
    · rw [hinfinite, hstring]
      exact ⟨nofun, nofun⟩
  · rintro n x rfl hx hinfinite
    exact site.load_of_overflow hx hinfinite
  · rintro string name rfl hmeaning hname
    exact site.load_of_not_mem hmeaning hname
  · obtain ⟨room, -, hload⟩ := site.load_eq
    rintro (rfl | ⟨value, rfl⟩ | ⟨hs, hopen, v, hv⟩)
    · exact hload .null
    · exact hload (.bool value)
    · have hother : s.isNumeric = false := by
        cases s with
        | array blanks items => rfl
        | object blanks members => rfl
        | _ => cases hs
      exact site.load_of_isNumeric hother hopen hv

end

/-! ### Three places -/

def record : NumberSite where
  root := some .numericLiteral
  around := {}
  enclosures := [.members {} [] { name := spelledString "value" } []]
  positions := [.member "value"]
  tree := Node.number
  standsAt := .cons (.member (meaning_spelledString "value") {} [] []) .nil
  leads := .record .value .member .number
  isOpen := by
    refine ⟨Double.nan.toValue.spelling, .nan, ?_⟩
    show Node.loadRecord (Node.number .nan).kind ((Node.number .nan).toRecord.spelling.textIn {}) = _
    rw [← Node.recordJson_eq_textIn, Node.loadRecord_recordJson]
    rfl

def node : NumberSite where
  root := none
  around := {}
  enclosures := [.members {} [({ name := spelledString "kind" }, .string (spelledString "NumericLiteral"))]
    { name := spelledString "value" } []]
  positions := [.member "value"]
  tree := Node.number
  standsAt := .cons (.member (meaning_spelledString "value") {} _ []) .nil
  leads := .node (.field .value .member .number)
  isOpen := by
    refine ⟨Double.nan.toValue.spelling, .nan, ?_⟩
    show Node.load ((Node.number .nan).toValue.spelling.textIn {}) = _
    rw [← Node.json_eq_textIn, Node.load_json]
    rfl

def statement : NumberSite where
  root := none
  around := {}
  enclosures := [.members {} [({ name := spelledString "kind" }, .string (spelledString "Program"))]
      { name := spelledString "body" } [],
    .items {} [] {} [],
    .members {} [({ name := spelledString "kind" }, .string (spelledString "NumericLiteral"))]
      { name := spelledString "value" } []]
  positions := [.member "body", .item 0, .member "value"]
  tree x := .program [.number x]
  standsAt := .cons (.member (meaning_spelledString "body") {} _ []) (.cons (.item {} [] {} [])
    (.cons (.member (meaning_spelledString "value") {} _ []) .nil))
  leads := .node (.field .body .member (.statement [] [] (.field .value .member .number)))
  isOpen := by
    refine ⟨Double.nan.toValue.spelling, .nan, ?_⟩
    show Node.load ((Node.program [.number .nan]).toValue.spelling.textIn {}) = _
    rw [← Node.json_eq_textIn, Node.load_json]
    rfl

def tooLarge : NumberSpelling :=
  .ofText { negative := false, whole := ['1'], exponent := some (false, ['4', '0', '0']) } false
    { whole := .of_all nofun rfl
      noLeadingZero := nofun
      fraction := nofun
      exponent := by
        rintro e he
        cases he
        exact .of_all nofun rfl }

theorem exact_tooLarge : tooLarge.parts.exact = 10 ^ 400 := by
  have hwhole : Nat.ofDigitChars 10 (tooLarge.parts.whole ++ tooLarge.parts.fraction) 0 = 1 := by decide
  have hpower : tooLarge.parts.power - tooLarge.parts.fraction.length = (400 : ℕ) := by decide
  rw [NumberText.exact, hwhole, hpower, zpow_natCast, Nat.cast_one, one_mul]

/-- In a statement, a name loads, another string and an array are refused for their content, and a number beyond the
limit is a fault of the text. -/
theorem accepted_values_of_statement :
    statement.text (.string (spelledString "NaN")) =
      "\x7b\"kind\":\"Program\",\"body\":[\x7b\"kind\":\"NumericLiteral\",\"value\":\"NaN\"\x7d]\x7d" ∧
    (∃ x, statement.load (.string (spelledString "NaN")) = .ok (.program [.number x]) ∧ x.isFinite = false) ∧
    statement.load (.string (spelledString "Infinity")) =
      .error (.content (.invalidValue (.string "Infinity") .number)) ∧
    statement.load (.array {} []) = .error (.content .notNumeric) ∧
    (Spelling.number tooLarge).text = "1e400" ∧ statement.load (.number tooLarge) = .error .malformed := by
  have hname : (Spelling.string (spelledString "NaN")).IsName :=
    ⟨_, "NaN", rfl, meaning_spelledString "NaN", by decide⟩
  obtain ⟨hload, htree, hfinite, -⟩ := statement.accepted_values (.string (spelledString "NaN"))
  obtain ⟨tree, hnan⟩ := hload.mpr (.inr hname)
  obtain ⟨x, rfl⟩ := htree tree hnan
  have hinfinite : x.isFinite = false := by
    rw [← Bool.not_eq_true, hfinite x hnan]
    exact nofun
  obtain ⟨-, -, -, -, hother, -⟩ := statement.accepted_values (.string (spelledString "Infinity"))
  obtain ⟨-, -, -, -, -, hrefused⟩ := statement.accepted_values (.array {} [])
  obtain ⟨-, -, -, hoverflow, -⟩ := statement.accepted_values (.number tooLarge)
  obtain ⟨y, hy⟩ := tooLarge.parts.exists_roundsTo
  have hlarge : y.isFinite = false := by
    rw [← Bool.not_eq_true, hy.isFinite_iff, exact_tooLarge, not_lt]
    exact Double.overflow_le
  have hopen : maxOpen (statement.text (.array {} [])) ≤ 127 := by decide +kernel
  have hread : Value.load 127 ((Spelling.array {} []).textIn {}) = .ok (.array []) := by
    rw [Value.load_textIn]
    rfl
  exact ⟨by decide +kernel, ⟨x, hnan, hinfinite⟩,
    hother _ "Infinity" rfl (meaning_spelledString "Infinity") (by decide),
    hrefused (.inr (.inr ⟨rfl, hopen, _, hread⟩)), by decide +kernel, hoverflow tooLarge y rfl hy hlarge⟩

end NumberSite

end SyntaxTree
