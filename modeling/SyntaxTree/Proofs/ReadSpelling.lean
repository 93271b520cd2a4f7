import SyntaxTree.Proofs.Scalar

/-!
Reading a spelled value. The readers of tokens, items and members are taken one step at a time, each step
as a lemma on a spelled text; from these a loop over items or members is a fold over them, and the reader of
values ends as the meaning of the spelling does, with everything after it left.
-/

namespace SyntaxTree.Json

/-! ### Tokens -/

theorem readToken_blanks (rules : Rules) (blanks : Blanks) (cs : List Char) :
    readToken rules (blanks.chars ++ cs) = readToken rules cs := by
  rw [readToken, readToken, skipBlanks_append]

theorem ne_of_isDigit {d e : Char} (hd : d.isDigit = true) (he : e.isDigit = false) : d ≠ e := by
  rintro rfl
  rw [hd] at he
  cases he

theorem isBlank_of_isDigit {d : Char} (h : d.isDigit = true) : isBlank d = false := by
  simp [isBlank, ne_of_isDigit h]

/-- A number without its sign starts with a digit. -/
theorem writeUnsigned_eq_cons (n : NumberSpelling) (rest : List Char) :
    ∃ d ds, n.writeUnsigned rest = d :: ds ∧ d.isDigit = true := by
  obtain ⟨hne, hdigits⟩ := n.wellFormed.whole
  cases hwhole : n.parts.whole with
  | nil => exact absurd hwhole hne
  | cons d ds =>
    refine ⟨d, ds ++ NumberSpelling.writeFraction n.parts.fraction (n.writeExponent rest), ?_, ?_⟩
    · rw [NumberSpelling.writeUnsigned, hwhole, List.cons_append]
    · exact hdigits d (by simp [hwhole])

theorem readToken_digit (rules : Rules) {d : Char} (h : d.isDigit = true) (cs : List Char) :
    readToken rules (d :: cs) = readNumber rules false (d :: cs) := by
  rw [readToken, skipBlanks_cons (isBlank_of_isDigit h)]
  simp only [ne_of_isDigit h (show '"'.isDigit = false by decide), if_false, h, if_true,
    ne_of_isDigit h (show '['.isDigit = false by decide),
    ne_of_isDigit h (show '{'.isDigit = false by decide),
    ne_of_isDigit h (show '-'.isDigit = false by decide)]

theorem readToken_minus (rules : Rules) (cs : List Char) :
    readToken rules ('-' :: cs) = readNumber rules true cs := by
  rw [readToken, skipBlanks_cons (by decide)]
  rfl

/-- The sign of a number or its first digit tells that a number is next. -/
theorem readToken_write_number (rules : Rules) (n : NumberSpelling) (rest : List Char) :
    readToken rules (n.write rest) = readNumber rules n.parts.negative (n.writeUnsigned rest) := by
  unfold NumberSpelling.write
  cases n.parts.negative with
  | true => exact readToken_minus rules _
  | false =>
    obtain ⟨d, ds, hcons, hd⟩ := writeUnsigned_eq_cons n rest
    simp only [Double.signChars, Bool.false_eq_true, if_false, List.nil_append]
    rw [hcons, readToken_digit rules hd]

theorem readToken_write_string (rules : Rules) (s : StringSpelling) (rest : List Char) :
    readToken rules (s.write rest) = (do
      let (text, rest) ← readString rules (s.writeOpened rest)
      .ok (.scalar (.string text), rest)) := rfl

theorem readToken_number (n : NumberSpelling) {rest : List Char} (h : Ends rest) :
    readToken .full (n.write rest) = leaving rest (do .ok (.scalar (← n.parts.value))) := by
  rw [readToken_write_number, readNumber, readNumberText_write n _ h, ok_bind, leaving_of_bind]
  rfl

theorem readToken_string (s : StringSpelling) (rest : List Char) :
    readToken .full (s.write rest) = leaving rest (do .ok (.scalar (.string (← s.meaning)))) := by
  rw [readToken_write_string, readString_write, leaving_bind, leaving_of_bind]
  rfl

theorem readToken_openArray (rules : Rules) (cs : List Char) :
    readToken rules ('[' :: cs) = .ok (.openArray, cs) := rfl

theorem readToken_openObject (rules : Rules) (cs : List Char) :
    readToken rules ('{' :: cs) = .ok (.openObject, cs) := rfl

namespace Spelling

/-- Whether a spelling has no brackets. -/
def isScalar : Spelling → Bool
  | array _ _ | object _ _ => false
  | _ => true

theorem scalar_or_brackets (s : Spelling) :
    s.isScalar = true ∨ (∃ blanks items, s = array blanks items) ∨ ∃ blanks members, s = object blanks members := by
  cases s with
  | array blanks items => exact .inr (.inl ⟨blanks, items, rfl⟩)
  | object blanks members => exact .inr (.inr ⟨blanks, members, rfl⟩)
  | null => exact .inl rfl
  | bool _ => exact .inl rfl
  | number _ => exact .inl rfl
  | string _ => exact .inl rfl

/-- A scalar needs no room. -/
theorem meaning_of_isScalar {s : Spelling} (h : s.isScalar = true) (room : Nat) :
    s.meaning room = s.meaning 0 := by
  cases s <;> first | (cases room <;> rfl) | cases h

theorem depth_of_isScalar {s : Spelling} (h : s.isScalar = true) : s.depth = 0 := by
  cases s <;> first | rfl | cases h

theorem readToken_scalar {s : Spelling} (h : s.isScalar = true) {rest : List Char} (hrest : Ends rest) :
    readToken .full (s.write rest) = leaving rest (do .ok (.scalar (← s.meaning 0))) := by
  cases s with
  | array _ _ => cases h
  | object _ _ => cases h
  | null => rfl
  | bool value => cases value <;> rfl
  | number n =>
    rw [write, readToken_number n hrest]
    rfl
  | string s =>
    rw [write, readToken_string, meaning]
    cases s.meaning <;> rfl

/-- A spelling starts with its first token, which does not close an array. -/
theorem write_eq_cons (s : Spelling) (rest : List Char) :
    ∃ c cs, s.write rest = c :: cs ∧ isBlank c = false ∧ c ≠ ']' := by
  cases s with
  | null => exact ⟨_, _, rfl, by decide, by decide⟩
  | bool value => cases value <;> exact ⟨_, _, rfl, by decide, by decide⟩
  | string s => exact ⟨_, _, rfl, by decide, by decide⟩
  | array blanks items => exact ⟨_, _, rfl, by decide, by decide⟩
  | object blanks members => exact ⟨_, _, rfl, by decide, by decide⟩
  | number n =>
    rw [write, NumberSpelling.write]
    cases n.parts.negative with
    | true => exact ⟨_, _, rfl, by decide, by decide⟩
    | false =>
      obtain ⟨d, ds, hcons, hd⟩ := writeUnsigned_eq_cons n rest
      exact ⟨d, ds, hcons, isBlank_of_isDigit hd, ne_of_isDigit hd (by decide)⟩

end Spelling

/-! ### The steps of a loop -/

/-- Whatever ends an array or an object, or stands between its parts, does not continue a number. -/
theorem ends_writeItems (items : List (Around × Spelling)) (rest : List Char) :
    Ends (Spelling.writeItems false items (']' :: rest)) := by
  cases items with
  | nil => exact ends_cons (by decide) _
  | cons item items => exact ends_cons (by decide) _

theorem ends_writeMembers (members : List (Label × Spelling)) (rest : List Char) :
    Ends (Spelling.writeMembers false members ('}' :: rest)) := by
  cases members with
  | nil => exact ends_cons (by decide) _
  | cons member members => exact ends_cons (by decide) _

theorem nextElement_blanks (first : Bool) (blanks : Blanks) (cs : List Char) :
    nextElement first (blanks.chars ++ cs) = nextElement first cs := by
  rw [nextElement, nextElement, skipBlanks_append]

theorem nextElement_close (first : Bool) (rest : List Char) :
    nextElement first (']' :: rest) = .ok (.close, rest) := by
  cases first <;> rfl

theorem nextElement_item (first : Bool) (blanks : Blanks) (s : Spelling) (rest : List Char) :
    nextElement first (writeComma first (blanks.chars ++ s.write rest)) = .ok (.item, s.write rest) := by
  obtain ⟨c, cs, hcons, hblank, hclose⟩ := s.write_eq_cons rest
  cases first with
  | true =>
    simp only [writeComma, if_true, nextElement_blanks, hcons]
    simp only [nextElement, skipBlanks_cons hblank, if_neg hclose, if_true]
  | false =>
    simp only [writeComma, Bool.false_eq_true, if_false]
    simp only [nextElement, skipBlanks_cons (show isBlank ',' = false by decide), skipBlanks_append, hcons,
      skipBlanks_cons hblank, if_neg hclose, show ¬(',' = ']') by decide, if_false, if_true,
      Bool.false_eq_true]

theorem nextMember_blanks (first : Bool) (blanks : Blanks) (cs : List Char) :
    nextMember first (blanks.chars ++ cs) = nextMember first cs := by
  rw [nextMember, nextMember, skipBlanks_append]

theorem nextMember_close (first : Bool) (rest : List Char) :
    nextMember first ('}' :: rest) = .ok (.close, rest) := by
  cases first <;> rfl

theorem nextMember_item (first : Bool) (blanks : Blanks) (name : StringSpelling) (rest : List Char) :
    nextMember first (writeComma first (blanks.chars ++ name.write rest)) =
      .ok (.item, name.writeOpened rest) := by
  cases first with
  | true =>
    simp only [writeComma, if_true, nextMember_blanks]
    rfl
  | false =>
    simp only [writeComma, Bool.false_eq_true, if_false, StringSpelling.write]
    rw [nextMember, skipBlanks_cons (by decide)]
    simp only [show ¬(',' = '}') by decide, Bool.false_eq_true, if_false, if_true, skipBlanks_append]
    rfl

theorem colon_write (before : Blanks) (rest : List Char) : colon (before.chars ++ ':' :: rest) = .ok rest := by
  rw [colon, skipBlanks_append]
  rfl

/-! ### Loops -/

section

variable {σ : Type} (fuel : Nat) (first : Bool) (state : σ) (rest : List Char)

theorem elements_close (step : σ → Reader σ) :
    elements step (fuel + 1) first state (']' :: rest) = .ok (state, rest) := by
  rw [elements, nextElement_close]
  rfl

theorem elements_item (step : σ → Reader σ) (around : Around) (s : Spelling)
    (items : List (Around × Spelling)) :
    elements step (fuel + 1) first state (Spelling.writeItems first ((around, s) :: items) rest) = (do
      let (state, cs) ← step state
        (s.write (around.after.chars ++ Spelling.writeItems false items rest))
      elements step fuel false state cs) := by
  rw [elements, Spelling.writeItems, nextElement_item]
  rfl

theorem elements_blanks (step : σ → Reader σ) (blanks : Blanks) (cs : List Char) :
    elements step fuel first state (blanks.chars ++ cs) = elements step fuel first state cs := by
  cases fuel with
  | zero => rfl
  | succ fuel => rw [elements, elements, nextElement_blanks]

theorem objectMembers_close (step : String → σ → Reader σ) :
    objectMembers step (fuel + 1) first state ('}' :: rest) = .ok (state, rest) := by
  rw [objectMembers, nextMember_close]
  rfl

theorem objectMembers_blanks (step : String → σ → Reader σ) (blanks : Blanks) (cs : List Char) :
    objectMembers step fuel first state (blanks.chars ++ cs) = objectMembers step fuel first state cs := by
  cases fuel with
  | zero => rfl
  | succ fuel => rw [objectMembers, objectMembers, nextMember_blanks]

/-- The text of a member from the end of its name on. -/
def Label.writeValue (label : Label) (s : Spelling) (rest : List Char) : List Char :=
  label.beforeColon.chars ++ ':' :: (label.afterColon.chars ++ s.write rest)

theorem objectMembers_item (step : String → σ → Reader σ) (label : Label) (s : Spelling)
    (members : List (Label × Spelling)) :
    objectMembers step (fuel + 1) first state (Spelling.writeMembers first ((label, s) :: members) rest) = (do
      let name ← label.name.meaning
      let (state, cs) ← step name state
        (label.writeValue s (label.after.chars ++ Spelling.writeMembers false members rest))
      objectMembers step fuel false state cs) := by
  rw [objectMembers, Spelling.writeMembers, nextMember_item, ok_bind]
  dsimp only
  rw [readString_write, leaving_bind]
  rfl

end

section

variable {σ : Type}

/-- A loop over items whose step ends on each of them as `f` does is a fold of `f`. -/
theorem elements_write {step : σ → Reader σ} {f : σ → Spelling → Except Fault σ}
    (items : List (Around × Spelling)) (rest : List Char)
    (hstep : ∀ item ∈ items, ∀ state tail, Ends tail →
      step state (item.2.write tail) = leaving tail (f state item.2))
    (fuel : Nat) (hfuel : items.length < fuel) (first : Bool) (state : σ) :
    elements step fuel first state (Spelling.writeItems first items (']' :: rest)) =
      leaving rest (items.foldlM (fun state item => f state item.2) state) := by
  induction items generalizing fuel first state with
  | nil =>
    obtain ⟨fuel, rfl⟩ : ∃ k, fuel = k + 1 := ⟨fuel - 1, by omega⟩
    exact elements_close fuel first state rest step
  | cons item items ih =>
    obtain ⟨around, s⟩ := item
    obtain ⟨fuel, rfl⟩ : ∃ k, fuel = k + 1 := ⟨fuel - 1, by omega⟩
    have htail : Ends (around.after.chars ++ Spelling.writeItems false items (']' :: rest)) :=
      ends_blanks _ (ends_writeItems items rest)
    rw [elements_item, hstep (around, s) List.mem_cons_self state _ htail, leaving_bind, List.foldlM_cons,
      leaving_of_bind]
    congr 1
    funext state'
    dsimp only
    rw [elements_blanks]
    exact ih (fun item hitem => hstep item (List.mem_cons_of_mem _ hitem)) fuel (by simpa using hfuel) false
      state'

/-- Collecting what `f` gives, last first. -/
theorem foldlM_collect {α β : Type} (f : α → Except Fault β) (as : List α) (bs : List β) :
    as.foldlM (fun bs a => do .ok ((← f a) :: bs)) bs = (do .ok ((← as.mapM f).reverse ++ bs)) := by
  induction as generalizing bs with
  | nil => rfl
  | cons a as ih =>
    rw [List.foldlM_cons, List.mapM_cons]
    cases f a with
    | error fault => rfl
    | ok b =>
      rw [ok_bind, ok_bind, ok_bind, ih]
      cases as.mapM f <;> simp [pure, Except.pure]

/-- A loop that collects what a reader gives, where the reader ends on each item as `f` does. -/
theorem elements_collect {α : Type} {read : Reader α} {f : Spelling → Except Fault α}
    (items : List (Around × Spelling)) (rest : List Char)
    (hread : ∀ item ∈ items, ∀ tail, Ends tail → read (item.2.write tail) = leaving tail (f item.2))
    (fuel : Nat) (hfuel : items.length < fuel) (first : Bool) :
    elements (collect read) fuel first [] (Spelling.writeItems first items (']' :: rest)) =
      leaving rest (do .ok (← items.mapM fun item => f item.2).reverse) := by
  have hstep : ∀ item ∈ items, ∀ as tail, Ends tail →
      collect read as (item.2.write tail) = leaving tail (do .ok ((← f item.2) :: as)) := by
    intro item hitem as tail htail
    rw [collect, hread item hitem tail htail, leaving_bind, leaving_of_bind]
    rfl
  rw [elements_write (f := fun as s => do .ok ((← f s) :: as)) items rest hstep fuel hfuel first [],
    foldlM_collect]
  simp only [List.append_nil]

/-- Carries a state through the members of an object by their names and values. -/
def foldMembers (f : σ → String → Spelling → Except Fault σ) (state : σ) (members : List (Label × Spelling)) :
    Except Fault σ :=
  members.foldlM (fun state member => do f state (← member.1.name.meaning) member.2) state

theorem foldMembers_label (f : σ → String → Spelling → Except Fault σ) (state : σ) (label : Label) (s : Spelling)
    (members : List (Label × Spelling)) :
    foldMembers f state ((label, s) :: members) = (do
      let name ← label.name.meaning
      let state ← f state name s
      foldMembers f state members) := by
  rw [foldMembers, List.foldlM_cons, bind_assoc]
  rfl

/-- A loop over members whose step ends on each of them as `f` does is a fold of `f`. -/
theorem objectMembers_write {step : String → σ → Reader σ} {f : σ → String → Spelling → Except Fault σ}
    (members : List (Label × Spelling)) (rest : List Char)
    (hstep : ∀ member ∈ members, ∀ name state tail, Ends tail →
      step name state (member.1.writeValue member.2 tail) = leaving tail (f state name member.2))
    (fuel : Nat) (hfuel : members.length < fuel) (first : Bool) (state : σ) :
    objectMembers step fuel first state (Spelling.writeMembers first members ('}' :: rest)) =
      leaving rest (foldMembers f state members) := by
  induction members generalizing fuel first state with
  | nil =>
    obtain ⟨fuel, rfl⟩ : ∃ k, fuel = k + 1 := ⟨fuel - 1, by omega⟩
    exact objectMembers_close fuel first state rest step
  | cons member members ih =>
    obtain ⟨label, s⟩ := member
    obtain ⟨fuel, rfl⟩ : ∃ k, fuel = k + 1 := ⟨fuel - 1, by omega⟩
    have htail : Ends (label.after.chars ++ Spelling.writeMembers false members ('}' :: rest)) :=
      ends_blanks _ (ends_writeMembers members rest)
    rw [objectMembers_item, foldMembers_label, leaving_of_bind]
    congr 1
    funext name
    rw [hstep (label, s) List.mem_cons_self name state _ htail, leaving_bind, leaving_of_bind]
    congr 1
    funext state'
    dsimp only
    rw [objectMembers_blanks]
    exact ih (fun member hmember => hstep member (List.mem_cons_of_mem _ hmember)) fuel
      (by simpa using hfuel) false state'

end

/-! ### Values -/

namespace Spelling

/-- What holds of scalars, and of brackets around values of which it holds, holds of all spellings. -/
@[elab_as_elim]
theorem induction {P : Spelling → Prop} (scalar : ∀ s, s.isScalar = true → P s)
    (array : ∀ blanks items, (∀ item ∈ items, P item.2) → P (.array blanks items))
    (object : ∀ blanks members, (∀ member ∈ members, P member.2) → P (.object blanks members))
    (s : Spelling) : P s := by
  cases s with
  | null => exact scalar _ rfl
  | bool _ => exact scalar _ rfl
  | number _ => exact scalar _ rfl
  | string _ => exact scalar _ rfl
  | array blanks items => exact array blanks items fun item h => induction scalar array object item.2
  | object blanks members => exact object blanks members fun member h => induction scalar array object member.2
termination_by s
decreasing_by
  · have hsize : sizeOf item < sizeOf items := List.sizeOf_lt_of_mem h
    cases item
    simp only [Spelling.array.sizeOf_spec, Prod.mk.sizeOf_spec] at *
    omega
  · have hsize : sizeOf member < sizeOf members := List.sizeOf_lt_of_mem h
    cases member
    simp only [Spelling.object.sizeOf_spec, Prod.mk.sizeOf_spec] at *
    omega

mutual

/-- How many scalars and brackets there are. -/
def size : Spelling → Nat
  | array _ items => itemsSize items + 2
  | object _ members => membersSize members + 2
  | _ => 1

def itemsSize : List (Around × Spelling) → Nat
  | [] => 0
  | (_, s) :: items => s.size + itemsSize items

def membersSize : List (Label × Spelling) → Nat
  | [] => 0
  | (_, s) :: members => s.size + membersSize members

end

theorem size_pos (s : Spelling) : 0 < s.size := by
  cases s <;> simp [size]

theorem size_of_isScalar {s : Spelling} (h : s.isScalar = true) : s.size = 1 := by
  cases s <;> first | rfl | cases h

theorem length_le_itemsSize (items : List (Around × Spelling)) : items.length ≤ itemsSize items := by
  induction items with
  | nil => exact Nat.le_refl 0
  | cons item items ih =>
    have hpos := item.2.size_pos
    rw [List.length_cons, itemsSize]
    omega

theorem size_le_itemsSize {items : List (Around × Spelling)} {item : Around × Spelling} (h : item ∈ items) :
    item.2.size ≤ itemsSize items := by
  induction items with
  | nil => cases h
  | cons head items ih =>
    rw [itemsSize]
    rcases List.mem_cons.mp h with rfl | h
    · omega
    · have hle := ih h
      omega

theorem length_le_membersSize (members : List (Label × Spelling)) :
    members.length ≤ membersSize members := by
  induction members with
  | nil => exact Nat.le_refl 0
  | cons member members ih =>
    have hpos := member.2.size_pos
    rw [List.length_cons, membersSize]
    omega

theorem size_le_membersSize {members : List (Label × Spelling)} {member : Label × Spelling}
    (h : member ∈ members) : member.2.size ≤ membersSize members := by
  induction members with
  | nil => cases h
  | cons head members ih =>
    rw [membersSize]
    rcases List.mem_cons.mp h with rfl | h
    · omega
    · have hle := ih h
      omega

theorem length_le_writeExponent (n : NumberSpelling) (rest : List Char) :
    rest.length ≤ (n.writeExponent rest).length := by
  unfold NumberSpelling.writeExponent
  split
  · omega
  · simp only [List.length_cons, List.length_append]
    omega
  · split <;> simp only [List.length_cons, List.length_append] <;> omega

theorem length_le_writeFraction (fraction rest : List Char) :
    rest.length ≤ (NumberSpelling.writeFraction fraction rest).length := by
  unfold NumberSpelling.writeFraction
  split
  · omega
  · simp only [List.length_cons, List.length_append]
    omega

/-- A scalar takes a character at least. -/
theorem length_lt_write_of_isScalar {s : Spelling} (h : s.isScalar = true) (rest : List Char) :
    rest.length < (s.write rest).length := by
  cases s with
  | array _ _ => cases h
  | object _ _ => cases h
  | null =>
    simp only [write, List.length_cons]
    omega
  | bool value => cases value <;> simp only [write, List.length_cons] <;> omega
  | string s =>
    simp only [write, StringSpelling.write, StringSpelling.writeOpened, List.length_cons, List.length_append]
    omega
  | number n =>
    have hwhole : n.parts.whole.length ≠ 0 := by simpa using n.wellFormed.whole.1
    have hexponent := length_le_writeExponent n rest
    have hfraction := length_le_writeFraction n.parts.fraction (n.writeExponent rest)
    simp only [write, NumberSpelling.write, NumberSpelling.writeUnsigned, List.length_append]
    omega

theorem itemsSize_add_length_le {items : List (Around × Spelling)}
    (h : ∀ item ∈ items, ∀ rest, item.2.size + rest.length ≤ (item.2.write rest).length)
    (first : Bool) (rest : List Char) :
    itemsSize items + rest.length ≤ (writeItems first items rest).length := by
  induction items generalizing first with
  | nil => simp [itemsSize, writeItems]
  | cons item items ih =>
    have hhead := h item List.mem_cons_self (item.1.after.chars ++ writeItems false items rest)
    have htail := ih (fun item hitem => h item (List.mem_cons_of_mem _ hitem)) false
    rw [itemsSize, writeItems, writeComma]
    split <;> simp only [List.length_cons, List.length_append] at * <;> omega

theorem membersSize_add_length_le {members : List (Label × Spelling)}
    (h : ∀ member ∈ members, ∀ rest, member.2.size + rest.length ≤ (member.2.write rest).length)
    (first : Bool) (rest : List Char) :
    membersSize members + rest.length ≤ (writeMembers first members rest).length := by
  induction members generalizing first with
  | nil => simp [membersSize, writeMembers]
  | cons member members ih =>
    have hhead := h member List.mem_cons_self (member.1.after.chars ++ writeMembers false members rest)
    have htail := ih (fun member hmember => h member (List.mem_cons_of_mem _ hmember)) false
    rw [membersSize, writeMembers, writeComma]
    split <;>
      simp only [StringSpelling.write, StringSpelling.writeOpened, List.length_cons,
        List.length_append] at * <;> omega

/-- Each scalar and each bracket takes a character at least. -/
theorem size_add_length_le (s : Spelling) (rest : List Char) : s.size + rest.length ≤ (s.write rest).length := by
  induction s using induction generalizing rest with
  | scalar s h =>
    have hlt := length_lt_write_of_isScalar h rest
    rw [size_of_isScalar h]
    omega
  | array blanks items ih =>
    have hle := itemsSize_add_length_le ih true (']' :: rest)
    simp only [size, write, List.length_cons, List.length_append] at *
    omega
  | object blanks members ih =>
    have hle := membersSize_add_length_le ih true ('}' :: rest)
    simp only [size, write, List.length_cons, List.length_append] at *
    omega

theorem itemsMeaning_eq_mapM (room : Nat) (items : List (Around × Spelling)) :
    itemsMeaning room items = items.mapM fun item => item.2.meaning room := by
  induction items with
  | nil => rfl
  | cons item items ih =>
    rw [itemsMeaning, List.mapM_cons, ih]
    rfl

def memberMeaning (room : Nat) (member : Label × Spelling) : Except Fault (String × Value) := do
  .ok (← member.1.name.meaning, ← member.2.meaning room)

theorem membersMeaning_eq_mapM (room : Nat) (members : List (Label × Spelling)) :
    membersMeaning room members = members.mapM (memberMeaning room) := by
  induction members with
  | nil => rfl
  | cons member members ih =>
    rw [membersMeaning, List.mapM_cons, memberMeaning, ih]
    cases member.1.name.meaning with
    | error fault => rfl
    | ok name => cases member.2.meaning room <;> rfl

theorem membersMeaning_append (room : Nat) (members members' : List (Label × Spelling)) :
    membersMeaning room (members ++ members') = (do
      let values ← membersMeaning room members
      .ok (values ++ (← membersMeaning room members'))) := by
  simp only [membersMeaning_eq_mapM, List.mapM_append]
  rfl

end Spelling

theorem foldMembers_collect (room : Nat) (members : List (Label × Spelling)) :
    foldMembers (fun values name s => do .ok ((name, ← s.meaning room) :: values)) [] members =
      (do .ok (← members.mapM (Spelling.memberMeaning room)).reverse) := by
  have hcollect := foldlM_collect (Spelling.memberMeaning room) members []
  simp only [Spelling.memberMeaning, bind_assoc, ok_bind, List.append_nil] at hcollect
  exact hcollect

theorem collectMember_write {read : Reader Value} {label : Label} {s : Spelling} {rest : List Char}
    {o : Except Fault Value} (name : String) (members : List (String × Value))
    (hread : read (label.afterColon.chars ++ s.write rest) = leaving rest o) :
    collectMember read name members (label.writeValue s rest) =
      leaving rest (do .ok ((name, ← o) :: members)) := by
  rw [collectMember, Label.writeValue, colon_write, ok_bind, hread, leaving_bind, leaving_of_bind]
  rfl

theorem readValue_blanks (bound room : Nat) (blanks : Blanks) (cs : List Char) :
    readValue bound room (blanks.chars ++ cs) = readValue bound room cs := by
  rw [readValue, readValue, readToken_blanks]

theorem readValue_write (bound : Nat) (s : Spelling) (room : Nat) {rest : List Char} (hrest : Ends rest)
    (hbound : s.size < bound) :
    readValue bound room (s.write rest) = leaving rest (s.meaning room) := by
  induction s using Spelling.induction generalizing room rest with
  | scalar s hs =>
    rw [readValue, Spelling.readToken_scalar hs hrest, leaving_bind, Spelling.meaning_of_isScalar hs room]
    cases s.meaning 0 <;> rfl
  | array blanks items ih =>
    rw [readValue, Spelling.write, readToken_openArray, ok_bind]
    cases room with
    | zero => rfl
    | succ room =>
      rw [Spelling.size] at hbound
      have hread : ∀ item ∈ items, ∀ tail, Ends tail →
          readValue bound room (item.2.write tail) = leaving tail (item.2.meaning room) := by
        intro item hitem tail htail
        have hsize := Spelling.size_le_itemsSize hitem
        exact ih item hitem room htail (by omega)
      have hcount := Spelling.length_le_itemsSize items
      dsimp only
      rw [elements_blanks, elements_collect items rest hread bound (by omega) true, leaving_bind,
        Spelling.meaning, Spelling.itemsMeaning_eq_mapM]
      cases items.mapM fun item => item.2.meaning room <;> simp
  | object blanks members ih =>
    rw [readValue, Spelling.write, readToken_openObject, ok_bind]
    cases room with
    | zero => rfl
    | succ room =>
      rw [Spelling.size] at hbound
      have hstep : ∀ member ∈ members, ∀ name values tail, Ends tail →
          collectMember (readValue bound room) name values (member.1.writeValue member.2 tail) =
            leaving tail (do .ok ((name, ← member.2.meaning room) :: values)) := by
        intro member hmember name values tail htail
        have hsize := Spelling.size_le_membersSize hmember
        exact collectMember_write name values
          ((readValue_blanks _ _ _ _).trans (ih member hmember room htail (by omega)))
      have hcount := Spelling.length_le_membersSize members
      dsimp only
      rw [objectMembers_blanks, objectMembers_write
        (f := fun values name s => do .ok ((name, ← s.meaning room) :: values))
        members rest hstep bound (by omega) true [], leaving_bind, foldMembers_collect, Spelling.meaning,
        Spelling.membersMeaning_eq_mapM]
      cases members.mapM (Spelling.memberMeaning room) <;> simp

end SyntaxTree.Json
