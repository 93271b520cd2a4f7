import SyntaxTree.Proofs.ReadSpelling

/-!
Skipping a spelled value. Whatever a spelling means, also where it has no meaning, its text keeps to the
grammar, so a reader that looks at the grammar alone passes over it.
-/

namespace SyntaxTree.Json

/-! ### Scalars -/

theorem readStringChars_grammar (spelled : List CharSpelling) (read rest : List Char) :
    ∃ text, readStringChars (escapeWith digitsEscape) 0 read
      (spelled.flatMap CharSpelling.chars ++ '"' :: rest) = .ok (text, rest) := by
  induction spelled generalizing read with
  | nil => exact ⟨_, rfl⟩
  | cons char spelled ih =>
    rw [List.flatMap_cons, List.append_assoc]
    cases char with
    | raw c hc =>
      obtain ⟨hquote, hbackslash, hcontrol⟩ := hc
      obtain ⟨text, htext⟩ := ih (c :: read)
      refine ⟨text, ?_⟩
      simp only [CharSpelling.chars, List.cons_append, List.nil_append]
      rw [readStringChars, if_neg hquote, if_neg hbackslash, if_neg (by omega)]
      exact htext
    | letter l c hl =>
      obtain ⟨text, htext⟩ := ih (c :: read)
      refine ⟨text, ?_⟩
      have hescape : escapeWith digitsEscape (l :: (spelled.flatMap CharSpelling.chars ++ '"' :: rest)) =
          .ok (c, 1) := by
        rw [escapeWith, if_neg (ne_u_of_letterEscape? hl), hl]
      simp only [CharSpelling.chars, List.cons_append, List.nil_append]
      rw [readStringChars_escape hescape]
      exact htext
    | unit a b c d unit hunit =>
      obtain ⟨text, htext⟩ := ih ('u' :: read)
      refine ⟨text, ?_⟩
      have hescape : escapeWith digitsEscape
          ('u' :: a :: b :: c :: d :: (spelled.flatMap CharSpelling.chars ++ '"' :: rest)) = .ok ('u', 5) := by
        rw [escapeWith, if_pos rfl, digitsEscape, codeUnit_append hunit]
        rfl
      simp only [CharSpelling.chars, List.cons_append, List.nil_append]
      rw [readStringChars_escape hescape]
      exact htext

theorem readString_grammar (s : StringSpelling) (rest : List Char) :
    ∃ text, readString .grammar (s.writeOpened rest) = .ok (text, rest) := by
  obtain ⟨text, htext⟩ := readStringChars_grammar s.chars [] rest
  refine ⟨String.ofList text, ?_⟩
  have hopened : readStringChars (escapeWith Rules.grammar.byNumber) 0 [] (s.writeOpened rest) =
      .ok (text, rest) := htext
  rw [readString, hopened, ok_bind]

/-- The grammar of a scalar holds whatever it means. -/
theorem readToken_grammar {s : Spelling} (h : s.isScalar = true) {rest : List Char} (hrest : Ends rest) :
    ∃ v, readToken .grammar (s.write rest) = .ok (.scalar v, rest) := by
  cases s with
  | array _ _ => cases h
  | object _ _ => cases h
  | null => exact ⟨_, rfl⟩
  | bool value => cases value <;> exact ⟨_, rfl⟩
  | number n =>
    refine ⟨.null, ?_⟩
    rw [Spelling.write, readToken_write_number, readNumber, readNumberText_write n _ hrest, ok_bind]
    rfl
  | string s =>
    obtain ⟨text, htext⟩ := readString_grammar s rest
    refine ⟨.string text, ?_⟩
    rw [Spelling.write, readToken_write_string, htext, ok_bind]

/-! ### Steps -/

namespace Spelling

mutual

/-- How many steps it takes to skip a spelling. -/
def steps : Spelling → Nat
  | array _ items => itemsSteps items + 2
  | object _ members => membersSteps members + 2
  | _ => 1

def itemsSteps : List (Around × Spelling) → Nat
  | [] => 0
  | (_, s) :: items => s.steps + itemsSteps items + 1

def membersSteps : List (Label × Spelling) → Nat
  | [] => 0
  | (_, s) :: members => s.steps + membersSteps members + 1

end

theorem steps_of_isScalar {s : Spelling} (h : s.isScalar = true) : s.steps = 1 := by
  cases s <;> first | rfl | cases h

/-- A scalar takes one step; going to an item takes one more, and a bracket one. -/
theorem steps_lt (s : Spelling) : s.steps < 2 * s.size := by
  induction s using induction with
  | scalar s h =>
    rw [steps_of_isScalar h, size_of_isScalar h]
    omega
  | array blanks items ih =>
    have hitems : itemsSteps items ≤ 2 * itemsSize items := by
      induction items with
      | nil => exact Nat.le_refl 0
      | cons item items ih' =>
        have hhead := ih item List.mem_cons_self
        have htail := ih' fun item h => ih item (List.mem_cons_of_mem _ h)
        rw [itemsSteps, itemsSize]
        omega
    rw [steps, size]
    omega
  | object blanks members ih =>
    have hmembers : membersSteps members ≤ 2 * membersSize members := by
      induction members with
      | nil => exact Nat.le_refl 0
      | cons member members ih' =>
        have hhead := ih member List.mem_cons_self
        have htail := ih' fun member h => ih member (List.mem_cons_of_mem _ h)
        rw [membersSteps, membersSize]
        omega
    rw [steps, size]
    omega

end Spelling

section

variable (fuel : Nat) (first : Bool) (stack : List Bracket) (rest : List Char)

theorem skipItems_blanks (bracket : Bracket) (blanks : Blanks) (cs : List Char) :
    skipItems fuel first (bracket :: stack) (blanks.chars ++ cs) = skipItems fuel first (bracket :: stack) cs := by
  cases fuel with
  | zero => rfl
  | succ fuel =>
    cases bracket with
    | array => rw [skipItems, skipItems, nextSkipped, nextSkipped, nextElement_blanks]
    | object => rw [skipItems, skipItems, nextSkipped, nextSkipped, nextMember_blanks]

theorem skipItems_closeArray :
    skipItems (fuel + 1) first (.array :: stack) (']' :: rest) = skipItems fuel false stack rest := by
  rw [skipItems, nextSkipped, nextElement_close]
  rfl

theorem skipItems_closeObject :
    skipItems (fuel + 1) first (.object :: stack) ('}' :: rest) = skipItems fuel false stack rest := by
  rw [skipItems, nextSkipped, nextMember_close]
  rfl

theorem skipItems_item (around : Around) (s : Spelling) (items : List (Around × Spelling)) :
    skipItems (fuel + 1) first (.array :: stack) (Spelling.writeItems first ((around, s) :: items) rest) =
      skipValue fuel (.array :: stack)
        (s.write (around.after.chars ++ Spelling.writeItems false items rest)) := by
  rw [skipItems, nextSkipped, Spelling.writeItems, nextElement_item]
  rfl

theorem skipValue_blanks (blanks : Blanks) (cs : List Char) :
    skipValue fuel stack (blanks.chars ++ cs) = skipValue fuel stack cs := by
  cases fuel with
  | zero => rfl
  | succ fuel => rw [skipValue, skipValue, readToken_blanks]

theorem skipItems_member (label : Label) (s : Spelling) (members : List (Label × Spelling)) :
    skipItems (fuel + 1) first (.object :: stack) (Spelling.writeMembers first ((label, s) :: members) rest) =
      skipValue fuel (.object :: stack)
        (s.write (label.after.chars ++ Spelling.writeMembers false members rest)) := by
  obtain ⟨name, hname⟩ := readString_grammar label.name (label.writeValue s
    (label.after.chars ++ Spelling.writeMembers false members rest))
  have hnext : nextSkipped .object first (Spelling.writeMembers first ((label, s) :: members) rest) =
      .ok (.item, label.afterColon.chars ++
        s.write (label.after.chars ++ Spelling.writeMembers false members rest)) := by
    rw [nextSkipped, Spelling.writeMembers, nextMember_item, ok_bind]
    dsimp only
    rw [Label.writeValue] at hname
    rw [hname, ok_bind]
    dsimp only
    rw [colon_write, ok_bind]
  rw [skipItems, hnext, ok_bind]
  exact skipValue_blanks _ _ _ _

end

/-! ### Values -/

/-- A spelled value is skipped in its steps, and what follows it comes next. -/
theorem skipValue_write (s : Spelling) (fuel : Nat) (stack : List Bracket) {rest : List Char}
    (hrest : Ends rest) :
    skipValue (fuel + s.steps) stack (s.write rest) = skipItems fuel false stack rest := by
  induction s using Spelling.induction generalizing fuel stack rest with
  | scalar s h =>
    obtain ⟨v, hv⟩ := readToken_grammar h hrest
    rw [Spelling.steps_of_isScalar h, skipValue, hv]
    rfl
  | array blanks items ih =>
    have hitems : ∀ first, skipItems (fuel + Spelling.itemsSteps items + 1) first (.array :: stack)
        (Spelling.writeItems first items (']' :: rest)) = skipItems fuel false stack rest := by
      induction items with
      | nil => exact fun first => skipItems_closeArray fuel first stack rest
      | cons item items ih' =>
        obtain ⟨around, s⟩ := item
        intro first
        have hfuel : fuel + Spelling.itemsSteps ((around, s) :: items) =
            fuel + Spelling.itemsSteps items + 1 + s.steps := by
          rw [Spelling.itemsSteps]
          omega
        have htail : Ends (around.after.chars ++ Spelling.writeItems false items (']' :: rest)) :=
          ends_blanks _ (ends_writeItems items rest)
        rw [hfuel, skipItems_item, ih (around, s) List.mem_cons_self _ _ htail, skipItems_blanks]
        exact ih' (fun item h => ih item (List.mem_cons_of_mem _ h)) false
    rw [Spelling.steps, Spelling.write, ← Nat.add_assoc, skipValue, readToken_openArray, ok_bind]
    dsimp only
    rw [skipItems_blanks]
    exact hitems true
  | object blanks members ih =>
    have hmembers : ∀ first, skipItems (fuel + Spelling.membersSteps members + 1) first (.object :: stack)
        (Spelling.writeMembers first members ('}' :: rest)) = skipItems fuel false stack rest := by
      induction members with
      | nil => exact fun first => skipItems_closeObject fuel first stack rest
      | cons member members ih' =>
        obtain ⟨label, s⟩ := member
        intro first
        have hfuel : fuel + Spelling.membersSteps ((label, s) :: members) =
            fuel + Spelling.membersSteps members + 1 + s.steps := by
          rw [Spelling.membersSteps]
          omega
        have htail : Ends (label.after.chars ++ Spelling.writeMembers false members ('}' :: rest)) :=
          ends_blanks _ (ends_writeMembers members rest)
        rw [hfuel, skipItems_member, ih (label, s) List.mem_cons_self _ _ htail, skipItems_blanks]
        exact ih' (fun member h => ih member (List.mem_cons_of_mem _ h)) false
    rw [Spelling.steps, Spelling.write, ← Nat.add_assoc, skipValue, readToken_openObject, ok_bind]
    dsimp only
    rw [skipItems_blanks]
    exact hmembers true

/-- A spelled value is skipped whatever it means and however deeply it nests. -/
theorem skip_write (s : Spelling) {bound : Nat} (hbound : s.size < bound) {rest : List Char}
    (hrest : Ends rest) : skip bound (s.write rest) = .ok rest := by
  have hsteps := s.steps_lt
  obtain ⟨fuel, hfuel⟩ : ∃ fuel, 2 * bound = fuel + s.steps := ⟨2 * bound - s.steps, by omega⟩
  rw [skip, hfuel, skipValue_write s fuel [] hrest]
  cases fuel <;> rfl

theorem skip_blanks (bound : Nat) (blanks : Blanks) (cs : List Char) :
    skip bound (blanks.chars ++ cs) = skip bound cs := skipValue_blanks _ _ _ _

end SyntaxTree.Json
