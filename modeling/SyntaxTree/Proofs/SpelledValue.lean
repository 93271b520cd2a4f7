import SyntaxTree.Proofs.Spelled

/-!
Loops and values that are read are spelled. The blanks in front of an item are those that the loop passed
over and those that the item's reader passed over; the blanks after it are in front of what comes next.
-/

namespace SyntaxTree.Json

def Blanks.append (a b : Blanks) : Blanks where
  chars := a.chars ++ b.chars
  isBlank_of_mem := by
    intro c hc
    rcases List.mem_append.mp hc with h | h
    · exact a.isBlank_of_mem c h
    · exact b.isBlank_of_mem c h

theorem eq_blanks_append {cs tail : List Char} (h : skipBlanks cs = tail) :
    cs = (leadingBlanks cs).chars ++ tail := by
  rw [← h, leadingBlanks_append_skipBlanks]

/-- A reader takes blanks and a spelling, and what it gives is what `f` makes of the spelling. -/
def Spells {α : Type} (read : Reader α) (f : Spelling → Except Fault α) : Prop :=
  ∀ cs a rest, read cs = .ok (a, rest) →
    ∃ (blanks : Blanks) (s : Spelling), cs = blanks.chars ++ s.write rest ∧ f s = .ok a

/-! ### The steps of a loop -/

theorem nextElement_close_eq_ok {first : Bool} {cs rest : List Char}
    (h : nextElement first cs = .ok (.close, rest)) : skipBlanks cs = ']' :: rest := by
  unfold nextElement at h
  cases hskip : skipBlanks cs with
  | nil =>
    rw [hskip] at h
    cases h
  | cons c tail =>
    rw [hskip] at h
    dsimp only at h
    split at h
    · rename_i hclose
      cases h
      rw [hclose]
    · split at h
      · cases h
      · split at h
        · split at h
          · cases h
          · split at h <;> cases h
        · cases h

/-- Before an item come blanks, a comma unless it is the first one, and blanks. -/
theorem nextElement_item_eq_ok {first : Bool} {cs rest : List Char}
    (h : nextElement first cs = .ok (.item, rest)) :
    ∃ after before : Blanks, cs = after.chars ++ writeComma first (before.chars ++ rest) := by
  unfold nextElement at h
  cases hskip : skipBlanks cs with
  | nil =>
    rw [hskip] at h
    cases h
  | cons c tail =>
    rw [hskip] at h
    dsimp only at h
    split at h
    · cases h
    · split at h
      · rename_i hfirst
        cases h
        refine ⟨leadingBlanks cs, {}, ?_⟩
        rw [hfirst, writeComma, if_pos rfl]
        exact eq_blanks_append hskip
      · rename_i hfirst
        split at h
        · rename_i hcomma
          cases hskip' : skipBlanks tail with
          | nil =>
            rw [hskip'] at h
            cases h
          | cons d tail' =>
            rw [hskip'] at h
            dsimp only at h
            split at h
            · cases h
            · cases h
              refine ⟨leadingBlanks cs, leadingBlanks tail, ?_⟩
              rw [writeComma, if_neg hfirst, ← eq_blanks_append hskip', ← hcomma]
              exact eq_blanks_append hskip
        · cases h

theorem openName_eq_ok {cs rest : List Char} {next : Next} (h : openName cs = .ok (next, rest)) :
    next = .item ∧ cs = '"' :: rest := by
  cases cs with
  | nil => cases h
  | cons c cs =>
    rw [openName] at h
    split at h
    · rename_i hc
      cases h
      exact ⟨rfl, by rw [hc]⟩
    · cases h

theorem nextMember_close_eq_ok {first : Bool} {cs rest : List Char}
    (h : nextMember first cs = .ok (.close, rest)) : skipBlanks cs = '}' :: rest := by
  unfold nextMember at h
  cases hskip : skipBlanks cs with
  | nil =>
    rw [hskip] at h
    cases h
  | cons c tail =>
    rw [hskip] at h
    dsimp only at h
    split at h
    · rename_i hclose
      cases h
      rw [hclose]
    · split at h
      · cases (openName_eq_ok h).1
      · split at h
        · cases (openName_eq_ok h).1
        · cases h

theorem nextMember_item_eq_ok {first : Bool} {cs rest : List Char}
    (h : nextMember first cs = .ok (.item, rest)) :
    ∃ after before : Blanks, cs = after.chars ++ writeComma first (before.chars ++ '"' :: rest) := by
  unfold nextMember at h
  cases hskip : skipBlanks cs with
  | nil =>
    rw [hskip] at h
    cases h
  | cons c tail =>
    rw [hskip] at h
    dsimp only at h
    split at h
    · cases h
    · split at h
      · rename_i hfirst
        refine ⟨leadingBlanks cs, {}, ?_⟩
        rw [hfirst, writeComma, if_pos rfl]
        exact eq_blanks_append (hskip.trans (openName_eq_ok h).2)
      · rename_i hfirst
        split at h
        · rename_i hcomma
          refine ⟨leadingBlanks cs, leadingBlanks tail, ?_⟩
          rw [writeComma, if_neg hfirst, ← eq_blanks_append (openName_eq_ok h).2, ← hcomma]
          exact eq_blanks_append hskip
        · cases h

theorem colon_eq_ok {cs rest : List Char} (h : colon cs = .ok rest) :
    ∃ before : Blanks, cs = before.chars ++ ':' :: rest := by
  unfold colon at h
  cases hskip : skipBlanks cs with
  | nil =>
    rw [hskip] at h
    cases h
  | cons c tail =>
    rw [hskip] at h
    dsimp only at h
    split at h
    · rename_i hc
      cases h
      exact ⟨leadingBlanks cs, eq_blanks_append (hskip.trans (by rw [hc]))⟩
    · cases h

/-! ### Loops -/

section

variable {σ : Type}

theorem elements_eq_ok {step : σ → Reader σ} {f : σ → Spelling → Except Fault σ}
    (hstep : ∀ state, Spells (step state) (f state)) {fuel : Nat} {first : Bool} {state state' : σ}
    {cs rest : List Char} (h : elements step fuel first state cs = .ok (state', rest)) :
    ∃ (blanks : Blanks) (items : List (Around × Spelling)),
      cs = blanks.chars ++ Spelling.writeItems first items (']' :: rest) ∧
        items.foldlM (fun state item => f state item.2) state = .ok state' := by
  induction fuel generalizing first state cs with
  | zero => cases h
  | succ fuel ih =>
    rw [elements] at h
    obtain ⟨⟨next, cs₁⟩, hnext, hbody⟩ := bind_eq_ok.mp h
    cases next with
    | close =>
      cases hbody
      exact ⟨leadingBlanks cs, [], eq_blanks_append (nextElement_close_eq_ok hnext), rfl⟩
    | item =>
      obtain ⟨⟨state₁, cs₂⟩, hread, hrest⟩ := bind_eq_ok.mp hbody
      obtain ⟨after, before, rfl⟩ := nextElement_item_eq_ok hnext
      obtain ⟨inner, s, rfl, hs⟩ := hstep state cs₁ state₁ cs₂ hread
      obtain ⟨blanks, items, rfl, hitems⟩ := ih hrest
      refine ⟨after, (⟨before.append inner, blanks⟩, s) :: items, ?_, ?_⟩
      · rw [Spelling.writeItems, Blanks.append, List.append_assoc]
      · rw [List.foldlM_cons, hs]
        exact hitems

theorem elements_collect_eq_ok {α : Type} {read : Reader α} {f : Spelling → Except Fault α}
    (hread : Spells read f) {fuel : Nat} {first : Bool} {as : List α} {cs rest : List Char}
    (h : elements (collect read) fuel first [] cs = .ok (as, rest)) :
    ∃ (blanks : Blanks) (items : List (Around × Spelling)),
      cs = blanks.chars ++ Spelling.writeItems first items (']' :: rest) ∧
        items.mapM (fun item => f item.2) = .ok as.reverse := by
  have hstep : ∀ as, Spells (collect read as) (fun s => do .ok ((← f s) :: as)) := by
    intro as cs as' rest hcollect
    obtain ⟨⟨a, rest'⟩, hitem, hcollect⟩ := bind_eq_ok.mp hcollect
    cases hcollect
    obtain ⟨blanks, s, hcs, hs⟩ := hread cs a rest hitem
    refine ⟨blanks, s, hcs, ?_⟩
    dsimp only
    rw [hs]
    rfl
  obtain ⟨blanks, items, hcs, hfold⟩ := elements_eq_ok hstep h
  refine ⟨blanks, items, hcs, ?_⟩
  rw [foldlM_collect] at hfold
  obtain ⟨values, hvalues, hfold⟩ := bind_eq_ok.mp hfold
  cases hfold
  rw [hvalues, List.append_nil, List.reverse_reverse]

/-- A step over members takes a colon between blanks and a spelling. -/
def SpellsMember (step : Reader σ) (f : Spelling → Except Fault σ) : Prop :=
  ∀ cs state rest, step cs = .ok (state, rest) → ∃ (before after : Blanks) (s : Spelling),
    cs = before.chars ++ ':' :: (after.chars ++ s.write rest) ∧ f s = .ok state

theorem objectMembers_eq_ok {step : String → σ → Reader σ} {f : σ → String → Spelling → Except Fault σ}
    (hstep : ∀ name state, SpellsMember (step name state) (f state name)) {fuel : Nat} {first : Bool}
    {state state' : σ} {cs rest : List Char}
    (h : objectMembers step fuel first state cs = .ok (state', rest)) :
    ∃ (blanks : Blanks) (members : List (Label × Spelling)),
      cs = blanks.chars ++ Spelling.writeMembers first members ('}' :: rest) ∧
        foldMembers f state members = .ok state' := by
  induction fuel generalizing first state cs with
  | zero => cases h
  | succ fuel ih =>
    rw [objectMembers] at h
    obtain ⟨⟨next, cs₁⟩, hnext, hbody⟩ := bind_eq_ok.mp h
    cases next with
    | close =>
      cases hbody
      exact ⟨leadingBlanks cs, [], eq_blanks_append (nextMember_close_eq_ok hnext), rfl⟩
    | item =>
      obtain ⟨⟨name, cs₂⟩, hname, hmember⟩ := bind_eq_ok.mp hbody
      obtain ⟨⟨state₁, cs₃⟩, hread, hrest⟩ := bind_eq_ok.mp hmember
      obtain ⟨outer, before, rfl⟩ := nextMember_item_eq_ok hnext
      obtain ⟨spelledName, rfl, hmeaning⟩ := readString_full_eq_ok hname
      obtain ⟨beforeColon, afterColon, s, rfl, hs⟩ := hstep name state cs₂ state₁ cs₃ hread
      obtain ⟨blanks, members, rfl, hmembers⟩ := ih hrest
      refine ⟨outer, (⟨before, spelledName, beforeColon, afterColon, blanks⟩, s) :: members, rfl, ?_⟩
      rw [foldMembers_label, hmeaning, ok_bind, hs]
      exact hmembers

end

/-! ### Values -/

theorem collectMember_eq_ok {read : Reader Value} {f : Spelling → Except Fault Value} (hread : Spells read f)
    (name : String) (members : List (String × Value)) :
    SpellsMember (collectMember read name members) (fun s => do .ok ((name, ← f s) :: members)) := by
  intro cs members' rest h
  obtain ⟨cs₁, hcolon, h⟩ := bind_eq_ok.mp h
  obtain ⟨⟨v, rest'⟩, hvalue, h⟩ := bind_eq_ok.mp h
  cases h
  obtain ⟨before, rfl⟩ := colon_eq_ok hcolon
  obtain ⟨after, s, rfl, hs⟩ := hread cs₁ v rest hvalue
  refine ⟨before, after, s, rfl, ?_⟩
  dsimp only
  rw [hs]
  rfl

/-- A value that is read is spelled, and its spelling means that value. -/
theorem spells_readValue (bound room : Nat) : Spells (readValue bound room) (Spelling.meaning room) := by
  induction room with
  | zero =>
    intro cs v rest h
    rw [readValue] at h
    obtain ⟨⟨token, cs₁⟩, htoken, h⟩ := bind_eq_ok.mp h
    have hspelled := readToken_eq_ok spelledEscape_full htoken
    cases token with
    | scalar value =>
      cases h
      obtain ⟨s, hs, hwrite, hmeaning⟩ := hspelled
      exact ⟨leadingBlanks cs, s, eq_blanks_append hwrite, hmeaning rfl⟩
    | openArray => cases h
    | openObject => cases h
  | succ room ih =>
    intro cs v rest h
    rw [readValue] at h
    obtain ⟨⟨token, cs₁⟩, htoken, h⟩ := bind_eq_ok.mp h
    have hspelled := readToken_eq_ok spelledEscape_full htoken
    cases token with
    | scalar value =>
      cases h
      obtain ⟨s, hs, hwrite, hmeaning⟩ := hspelled
      exact ⟨leadingBlanks cs, s, eq_blanks_append hwrite,
        (Spelling.meaning_of_isScalar hs _).trans (hmeaning rfl)⟩
    | openArray =>
      obtain ⟨⟨values, cs₂⟩, hitems, h⟩ := bind_eq_ok.mp h
      cases h
      obtain ⟨blanks, items, rfl, hvalues⟩ := elements_collect_eq_ok ih hitems
      refine ⟨leadingBlanks cs, .array blanks items, eq_blanks_append hspelled, ?_⟩
      rw [Spelling.meaning, Spelling.itemsMeaning_eq_mapM, hvalues]
      rfl
    | openObject =>
      obtain ⟨⟨values, cs₂⟩, hmembers, h⟩ := bind_eq_ok.mp h
      cases h
      obtain ⟨blanks, members, rfl, hvalues⟩ :=
        objectMembers_eq_ok (fun name values => collectMember_eq_ok ih name values) hmembers
      rw [foldMembers_collect] at hvalues
      obtain ⟨pairs, hpairs, hvalues⟩ := bind_eq_ok.mp hvalues
      cases hvalues
      refine ⟨leadingBlanks cs, .object blanks members, eq_blanks_append hspelled, ?_⟩
      rw [Spelling.meaning, Spelling.membersMeaning_eq_mapM, hpairs, List.reverse_reverse]
      rfl

/-! ### Skipping -/

/-- What stands inside a bracket up to `rest`, which follows the closing one. -/
def SpelledInside (first : Bool) (cs rest : List Char) : Bracket → Prop
  | .array => ∃ (blanks : Blanks) (items : List (Around × Spelling)),
      cs = blanks.chars ++ Spelling.writeItems first items (']' :: rest)
  | .object => ∃ (blanks : Blanks) (members : List (Label × Spelling)),
      cs = blanks.chars ++ Spelling.writeMembers first members ('}' :: rest)

theorem spelledInside_close {bracket : Bracket} {first : Bool} {cs rest : List Char}
    (h : nextSkipped bracket first cs = .ok (.close, rest)) : SpelledInside first cs rest bracket := by
  cases bracket with
  | array => exact ⟨leadingBlanks cs, [], eq_blanks_append (nextElement_close_eq_ok h)⟩
  | object =>
    rw [nextSkipped] at h
    obtain ⟨⟨next, cs₁⟩, hnext, hbody⟩ := bind_eq_ok.mp h
    cases next with
    | close =>
      cases hbody
      exact ⟨leadingBlanks cs, [], eq_blanks_append (nextMember_close_eq_ok hnext)⟩
    | item =>
      obtain ⟨_, _, hbody⟩ := bind_eq_ok.mp hbody
      obtain ⟨_, _, hbody⟩ := bind_eq_ok.mp hbody
      cases hbody

/-- An item in front of what stands inside a bracket stands inside it too. -/
theorem spelledInside_item {bracket : Bracket} {first : Bool} {cs cs₁ cs₂ rest : List Char} {s : Spelling}
    {inner : Blanks} (hnext : nextSkipped bracket first cs = .ok (.item, cs₁))
    (hitem : cs₁ = inner.chars ++ s.write cs₂) (hrest : SpelledInside false cs₂ rest bracket) :
    SpelledInside first cs rest bracket := by
  cases bracket with
  | array =>
    obtain ⟨blanks, items, rfl⟩ := hrest
    obtain ⟨after, before, rfl⟩ := nextElement_item_eq_ok hnext
    refine ⟨after, (⟨before.append inner, blanks⟩, s) :: items, ?_⟩
    rw [Spelling.writeItems, Blanks.append, List.append_assoc, hitem]
  | object =>
    rw [nextSkipped] at hnext
    obtain ⟨⟨next, cs₃⟩, hmember, hbody⟩ := bind_eq_ok.mp hnext
    cases next with
    | close => cases hbody
    | item =>
      obtain ⟨⟨name, cs₄⟩, hname, hvalue⟩ := bind_eq_ok.mp hbody
      obtain ⟨cs₅, hcolon, hvalue⟩ := bind_eq_ok.mp hvalue
      cases hvalue
      obtain ⟨blanks, members, rfl⟩ := hrest
      obtain ⟨outer, before, rfl⟩ := nextMember_item_eq_ok hmember
      obtain ⟨spelledName, rfl⟩ := readString_eq_ok spelledEscape_grammar hname
      obtain ⟨beforeColon, rfl⟩ := colon_eq_ok hcolon
      refine ⟨outer, (⟨before, spelledName, beforeColon, inner, blanks⟩, s) :: members, ?_⟩
      rw [Spelling.writeMembers, hitem]
      rfl

/-- What is skipped inside the open brackets is spelled, and the brackets around it go on after it. -/
theorem skip_inside (fuel : Nat) :
    (∀ stack cs rest, skipValue fuel stack cs = .ok rest →
      ∃ (blanks : Blanks) (s : Spelling) (tail : List Char) (fuel' : Nat),
        cs = blanks.chars ++ s.write tail ∧ fuel' < fuel ∧ skipItems fuel' false stack tail = .ok rest) ∧
    (∀ first bracket stack cs rest, skipItems fuel first (bracket :: stack) cs = .ok rest →
      ∃ (tail : List Char) (fuel' : Nat),
        SpelledInside first cs tail bracket ∧ fuel' < fuel ∧ skipItems fuel' false stack tail = .ok rest) := by
  induction fuel using Nat.strongRecOn with
  | ind fuel ih =>
    cases fuel with
    | zero =>
      constructor
      · intro stack cs rest h
        cases h
      · intro first bracket stack cs rest h
        cases h
    | succ fuel =>
      obtain ⟨ihValue, ihItems⟩ := ih fuel (Nat.lt_succ_self fuel)
      constructor
      · intro stack cs rest h
        rw [skipValue] at h
        obtain ⟨⟨token, cs₁⟩, htoken, hbody⟩ := bind_eq_ok.mp h
        have hspelled := readToken_eq_ok spelledEscape_grammar htoken
        cases token with
        | scalar v =>
          obtain ⟨s, hs, hwrite, -⟩ := hspelled
          exact ⟨leadingBlanks cs, s, cs₁, fuel, eq_blanks_append hwrite, Nat.lt_succ_self fuel, hbody⟩
        | openArray =>
          obtain ⟨tail, fuel', ⟨blanks, items, rfl⟩, hlt, hrest⟩ := ihItems true .array stack cs₁ rest hbody
          exact ⟨leadingBlanks cs, .array blanks items, tail, fuel', eq_blanks_append hspelled, by omega, hrest⟩
        | openObject =>
          obtain ⟨tail, fuel', ⟨blanks, members, rfl⟩, hlt, hrest⟩ :=
            ihItems true .object stack cs₁ rest hbody
          exact ⟨leadingBlanks cs, .object blanks members, tail, fuel', eq_blanks_append hspelled, by omega,
            hrest⟩
      · intro first bracket stack cs rest h
        rw [skipItems] at h
        obtain ⟨⟨next, cs₁⟩, hnext, hbody⟩ := bind_eq_ok.mp h
        cases next with
        | close => exact ⟨cs₁, fuel, spelledInside_close hnext, Nat.lt_succ_self fuel, hbody⟩
        | item =>
          obtain ⟨inner, s, cs₂, fuel₁, hcs₁, hlt₁, hitems⟩ := ihValue (bracket :: stack) cs₁ rest hbody
          obtain ⟨tail, fuel₂, hinside, hlt₂, hrest⟩ :=
            (ih fuel₁ (by omega)).2 false bracket stack cs₂ rest hitems
          exact ⟨tail, fuel₂, spelledInside_item hnext hcs₁ hinside, by omega, hrest⟩

theorem skip_eq_ok {bound : Nat} {cs rest : List Char} (h : skip bound cs = .ok rest) :
    ∃ (blanks : Blanks) (s : Spelling), cs = blanks.chars ++ s.write rest := by
  obtain ⟨blanks, s, tail, fuel, hcs, -, hrest⟩ := (skip_inside (2 * bound)).1 [] cs rest h
  have htail : tail = rest := by
    cases fuel <;> cases hrest <;> rfl
  exact ⟨blanks, s, htail ▸ hcs⟩

end SyntaxTree.Json
