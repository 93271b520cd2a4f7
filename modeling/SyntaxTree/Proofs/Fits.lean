import SyntaxTree.Proofs.NodeText

/-!
What is read fits. A value that was read is no deeper than the room it was given and holds only numbers that a
text can hold; a tree made of it, or read straight from a text, is no deeper in JSON either, and its numbers
are canonical. So it needs no more room when it is written and read again.
-/

namespace SyntaxTree

open Json

namespace Json

/-! ### Loops that succeed -/

section

variable {α β σ : Type}

theorem mapM_eq_ok {f : α → Except Fault β} {P : α → Prop} {Q : β → Prop} {as : List α} {bs : List β}
    (hstep : ∀ a ∈ as, ∀ b, f a = .ok b → P a ∧ Q b) (h : as.mapM f = .ok bs) :
    (∀ a ∈ as, P a) ∧ ∀ b ∈ bs, Q b := by
  induction as generalizing bs with
  | nil =>
    cases h
    exact ⟨by simp, by simp⟩
  | cons a as ih =>
    rw [List.mapM_cons] at h
    obtain ⟨b, hb, hrest⟩ := bind_eq_ok.mp h
    obtain ⟨bs', hbs', hrest⟩ := bind_eq_ok.mp hrest
    cases hrest
    obtain ⟨hP, hQ⟩ := hstep a List.mem_cons_self b hb
    obtain ⟨hPs, hQs⟩ := ih (fun a ha => hstep a (List.mem_cons_of_mem _ ha)) hbs'
    exact ⟨List.forall_mem_cons.mpr ⟨hP, hPs⟩, List.forall_mem_cons.mpr ⟨hQ, hQs⟩⟩

/-- What each step keeps holds at the end, and what each step finds out holds of all that was gone through. -/
theorem foldlM_eq_ok {f : σ → α → Except Fault σ} {I : σ → Prop} {P : α → Prop} {as : List α} {state state' : σ}
    (hstep : ∀ a ∈ as, ∀ state state', I state → f state a = .ok state' → I state' ∧ P a) (hI : I state)
    (h : as.foldlM f state = .ok state') : I state' ∧ ∀ a ∈ as, P a := by
  induction as generalizing state with
  | nil =>
    cases h
    exact ⟨hI, by simp⟩
  | cons a as ih =>
    rw [List.foldlM_cons] at h
    obtain ⟨state₁, hfirst, hrest⟩ := bind_eq_ok.mp h
    obtain ⟨hI₁, hP⟩ := hstep a List.mem_cons_self state state₁ hI hfirst
    obtain ⟨hI', hPs⟩ := ih (fun a ha => hstep a (List.mem_cons_of_mem _ ha)) hI₁ hrest
    exact ⟨hI', List.forall_mem_cons.mpr ⟨hP, hPs⟩⟩

theorem foldMembers_eq_ok {f : σ → String → Spelling → Except Fault σ} {I : σ → Prop} {P : Spelling → Prop}
    {members : List (Label × Spelling)} {state state' : σ}
    (hstep : ∀ member ∈ members, ∀ name state state', I state → f state name member.2 = .ok state' →
      I state' ∧ P member.2)
    (hI : I state) (h : foldMembers f state members = .ok state') :
    I state' ∧ ∀ member ∈ members, P member.2 := by
  refine foldlM_eq_ok ?_ hI h
  intro member hmember state state' hI hadd
  obtain ⟨name, -, hadd⟩ := bind_eq_ok.mp hadd
  exact hstep member hmember name state state' hI hadd

end

theorem enter_eq_ok {room room' : Nat} (h : enter room = .ok room') : room = room' + 1 := by
  cases room with
  | zero => cases h
  | succ room =>
    cases h
    rfl

/-! ### Depths -/

theorem Spelling.itemsDepth_le_iff {items : List (Around × Spelling)} {n : Nat} :
    Spelling.itemsDepth items ≤ n ↔ ∀ item ∈ items, item.2.depth ≤ n := by
  induction items with
  | nil => simp [Spelling.itemsDepth]
  | cons item items ih => rw [Spelling.itemsDepth, Nat.max_le, ih, List.forall_mem_cons]

theorem Spelling.membersDepth_le_iff {members : List (Label × Spelling)} {n : Nat} :
    Spelling.membersDepth members ≤ n ↔ ∀ member ∈ members, member.2.depth ≤ n := by
  induction members with
  | nil => simp [Spelling.membersDepth]
  | cons member members ih => rw [Spelling.membersDepth, Nat.max_le, ih, List.forall_mem_cons]

namespace Value

/-- A value that may stand where there is room for `room` brackets inside each other. -/
structure Fits (room : Nat) (v : Value) : Prop where
  depth_le : v.depth ≤ room
  readable : v.IsReadable

theorem fits_array {room : Nat} {items : List Value} :
    (Value.array items).Fits (room + 1) ↔ ∀ item ∈ items, item.Fits room := by
  have hiff : (itemsDepth items ≤ room ∧ ItemsReadable items) ↔ ∀ item ∈ items, item.Fits room := by
    induction items with
    | nil => simp [itemsDepth, ItemsReadable]
    | cons item items ih =>
      rw [List.forall_mem_cons, ← ih, itemsDepth, ItemsReadable, Nat.max_le]
      constructor
      · rintro ⟨⟨hdepth, hdepths⟩, hreadable, hreadables⟩
        exact ⟨⟨hdepth, hreadable⟩, hdepths, hreadables⟩
      · rintro ⟨⟨hdepth, hreadable⟩, hdepths, hreadables⟩
        exact ⟨⟨hdepth, hdepths⟩, hreadable, hreadables⟩
  rw [← hiff]
  constructor
  · rintro ⟨hdepth, hreadable⟩
    exact ⟨Nat.le_of_succ_le_succ hdepth, hreadable⟩
  · rintro ⟨hdepth, hreadable⟩
    exact ⟨Nat.succ_le_succ hdepth, hreadable⟩

theorem fits_object {room : Nat} {members : List (String × Value)} :
    (Value.object members).Fits (room + 1) ↔ ∀ member ∈ members, member.2.Fits room := by
  have hiff : (membersDepth members ≤ room ∧ MembersReadable members) ↔ ∀ member ∈ members, member.2.Fits room := by
    induction members with
    | nil => simp [membersDepth, MembersReadable]
    | cons member members ih =>
      rw [List.forall_mem_cons, ← ih, membersDepth, MembersReadable, Nat.max_le]
      constructor
      · rintro ⟨⟨hdepth, hdepths⟩, hreadable, hreadables⟩
        exact ⟨⟨hdepth, hreadable⟩, hdepths, hreadables⟩
      · rintro ⟨⟨hdepth, hreadable⟩, hdepths, hreadables⟩
        exact ⟨⟨hdepth, hdepths⟩, hreadable, hreadables⟩
  rw [← hiff]
  constructor
  · rintro ⟨hdepth, hreadable⟩
    exact ⟨Nat.le_of_succ_le_succ hdepth, hreadable⟩
  · rintro ⟨hdepth, hreadable⟩
    exact ⟨Nat.succ_le_succ hdepth, hreadable⟩

end Value

/-! ### Values that are read -/

theorem NumberText.isReadable_of_value {n : NumberText} {v : Value} (h : n.value = .ok v) :
    v.depth = 0 ∧ v.IsReadable := by
  unfold NumberText.value at h
  cases hinteger : n.integer? with
  | some i =>
    rw [hinteger] at h
    cases h
    refine ⟨rfl, ?_⟩
    have hrange : -0x8000000000000000 ≤ i ∧ i < 0x10000000000000000 := by
      simp only [NumberText.integer?] at hinteger
      split at hinteger
      · split at hinteger
        · split at hinteger
          · rename_i hwhole
            cases hinteger
            omega
          · cases hinteger
        · split at hinteger
          · cases hinteger
            omega
          · cases hinteger
      · cases hinteger
    exact hrange
  | none =>
    rw [hinteger, NumberText.float] at h
    dsimp only at h
    split at h
    · rename_i hfinite
      cases h
      exact ⟨rfl, hfinite⟩
    · cases h

/-- A value that a spelling means fits the room it was read in, and so do the brackets of the spelling. -/
theorem Spelling.fits_of_meaning {s : Spelling} {room : Nat} {v : Value} (h : s.meaning room = .ok v) :
    s.depth ≤ room ∧ v.Fits room := by
  induction s using Spelling.induction generalizing room v with
  | scalar s hs =>
    rw [meaning_of_isScalar hs] at h
    have hv : v.depth = 0 ∧ v.IsReadable := by
      cases s with
      | array _ _ => cases hs
      | object _ _ => cases hs
      | null =>
        cases h
        exact ⟨rfl, trivial⟩
      | bool value =>
        cases h
        exact ⟨rfl, trivial⟩
      | number n => exact NumberText.isReadable_of_value h
      | string s =>
        obtain ⟨text, -, h⟩ := bind_eq_ok.mp h
        cases h
        exact ⟨rfl, trivial⟩
    rw [depth_of_isScalar hs]
    exact ⟨Nat.zero_le room, by rw [hv.1]; exact Nat.zero_le room, hv.2⟩
  | array blanks items ih =>
    rw [meaning_array] at h
    obtain ⟨room', hroom, h⟩ := bind_eq_ok.mp h
    obtain ⟨values, hvalues, h⟩ := bind_eq_ok.mp h
    cases h
    rw [enter_eq_ok hroom]
    rw [itemsMeaning_eq_mapM] at hvalues
    obtain ⟨hdepths, hfits⟩ := mapM_eq_ok (fun item hitem v hv => ih item hitem hv) hvalues
    exact ⟨Nat.succ_le_succ (itemsDepth_le_iff.mpr hdepths), Value.fits_array.mpr hfits⟩
  | object blanks members ih =>
    rw [meaning_object] at h
    obtain ⟨room', hroom, h⟩ := bind_eq_ok.mp h
    obtain ⟨values, hvalues, h⟩ := bind_eq_ok.mp h
    cases h
    rw [enter_eq_ok hroom]
    rw [membersMeaning_eq_mapM] at hvalues
    have hstep : ∀ member ∈ members, ∀ value : String × Value, memberMeaning room' member = .ok value →
        member.2.depth ≤ room' ∧ value.2.Fits room' := by
      intro member hmember value hvalue
      obtain ⟨name, -, hvalue⟩ := bind_eq_ok.mp hvalue
      obtain ⟨v, hv, hvalue⟩ := bind_eq_ok.mp hvalue
      cases hvalue
      exact ih member hmember hv
    obtain ⟨hdepths, hfits⟩ := mapM_eq_ok hstep hvalues
    exact ⟨Nat.succ_le_succ (membersDepth_le_iff.mpr hdepths), Value.fits_object.mpr hfits⟩

end Json

end SyntaxTree
