import SyntaxTree.Proofs.Tags

/-!
Filling in two records side by side. A relation between records that offer the same slots, and that holds again
whatever is filled in, is kept by everything that fills in a record, be it from members or from items, from
spellings or from values. One such relation is that the records are alike but for one node that both have
already; so what they become differs in that node alone.
-/

namespace SyntaxTree

open Json

namespace Draft

/-- Two records in the relation offer the same slots, and stay in it when a field is filled in both. -/
structure Simulation (R : Draft → Draft → Prop) : Prop where
  slot_cases : ∀ {draft draft' : Draft}, R draft draft' → ∀ name,
    (draft.slot name = .unknown ∧ draft'.slot name = .unknown) ∨
    (draft.slot name = .filled ∧ draft'.slot name = .filled) ∨
    ∃ place fill fill', draft.slot name = .vacant place fill ∧ draft'.slot name = .vacant place fill' ∧
      ∀ content, R (fill content) (fill' content)

/-- What is filled in alike in two records keeps every such relation between them. -/
def Respects (run : Draft → Except Fault Draft) : Prop :=
  ∀ {R : Draft → Draft → Prop}, Simulation R → ∀ {draft draft' filled : Draft}, R draft draft' →
    run draft = .ok filled → ∃ filled', run draft' = .ok filled' ∧ R filled filled'

/-! ### Members -/

theorem respects_fillWith (name : String) (read : (place : Place) → Except Fault place.Content) :
    Respects fun draft => draft.fillWith name read := by
  intro R hR draft draft' filled h hfill
  dsimp only at hfill ⊢
  unfold fillWith at hfill ⊢
  rcases hR.slot_cases h name with ⟨hslot, hslot'⟩ | ⟨hslot, hslot'⟩ | ⟨place, fill, fill', hslot, hslot', hkept⟩
  · rw [hslot] at hfill
    cases hfill
    exact ⟨draft', by rw [hslot'], h⟩
  · rw [hslot] at hfill
    cases hfill
  · rw [hslot] at hfill
    obtain ⟨content, hcontent, hfill⟩ := bind_eq_ok.mp hfill
    cases hfill
    refine ⟨fill' content, ?_, hkept content⟩
    rw [hslot']
    dsimp only
    rw [hcontent, ok_bind]

theorem respects_foldlM {α : Type} {step : Draft → α → Except Fault Draft}
    (hstep : ∀ a, Respects fun draft => step draft a) (as : List α) :
    Respects fun draft => as.foldlM step draft := by
  intro R hR draft draft' filled h hfill
  dsimp only at hfill ⊢
  induction as generalizing draft draft' with
  | nil =>
    cases hfill
    exact ⟨draft', rfl, h⟩
  | cons a as ih =>
    rw [List.foldlM_cons] at hfill
    obtain ⟨next, hnext, hfill⟩ := bind_eq_ok.mp hfill
    obtain ⟨next', hnext', hkept⟩ := hstep a hR h hnext
    dsimp only at hnext'
    obtain ⟨filled', hfill', hkept'⟩ := ih hkept hfill
    refine ⟨filled', ?_, hkept'⟩
    rw [List.foldlM_cons, hnext', ok_bind, hfill']

theorem respects_foldMembers (room : Nat) (members : List (Label × Spelling)) :
    Respects fun draft => foldMembers (Spelling.addField room) draft members := by
  apply respects_foldlM
  intro member R hR draft draft' filled h hfill
  dsimp only at hfill ⊢
  obtain ⟨name, hname, hadd⟩ := bind_eq_ok.mp hfill
  obtain ⟨filled', hadd', hkept⟩ :=
    respects_fillWith name (fun place => member.2.contentMeaning room place) hR h hadd
  refine ⟨filled', ?_, hkept⟩
  rw [hname, ok_bind]
  exact hadd'

theorem respects_fillMembers (members : List (String × Value)) :
    Respects fun draft => fillMembers draft members := by
  simp only [fillMembers_eq_foldlM]
  apply respects_foldlM
  exact fun member => respects_fillWith member.1 fun place => contentOfValue place member.2

/-! ### Items -/

theorem addItems_cons {room : Nat} {k : Kind} {count : Nat} {draft : Draft} {name : String}
    {place : Place} {fill : place.Content → Draft} (hslot : draft.slot name = .vacant place fill)
    (names : List String) (around : Around) (s : Spelling) (items : List (Around × Spelling)) :
    Spelling.addItems room k count draft (name :: names) ((around, s) :: items) = (do
      let draft ← draft.fillWith name fun place => s.contentMeaning room place
      Spelling.addItems room k (count + 1) draft names items) := by
  rw [Spelling.addItems, fillWith, hslot]
  dsimp only
  rw [bind_assoc]
  rfl

theorem respects_addItems (room : Nat) (k : Kind) (count : Nat) (names : List String)
    (items : List (Around × Spelling)) :
    Respects fun draft => Spelling.addItems room k count draft names items := by
  intro R hR draft draft' filled h hfill
  dsimp only at hfill ⊢
  induction names generalizing count draft draft' items with
  | nil =>
    cases items with
    | nil =>
      cases hfill
      exact ⟨draft', rfl, h⟩
    | cons item items => cases hfill
  | cons name names ih =>
    cases items with
    | nil => cases hfill
    | cons item items =>
      rw [Spelling.addItems] at hfill ⊢
      rcases hR.slot_cases h name with ⟨hslot, -⟩ | ⟨hslot, -⟩ | ⟨place, fill, fill', hslot, hslot', hkept⟩
      · rw [hslot] at hfill
        cases hfill
      · rw [hslot] at hfill
        cases hfill
      · rw [hslot] at hfill
        obtain ⟨content, hcontent, hfill⟩ := bind_eq_ok.mp hfill
        obtain ⟨filled', hfill', hkept'⟩ := ih (count + 1) items (hkept content) hfill
        refine ⟨filled', ?_, hkept'⟩
        rw [hslot']
        dsimp only
        rw [hcontent, ok_bind, hfill']

theorem respects_fillItems (k : Kind) (count : Nat) (names : List String) (items : List Value) :
    Respects fun draft => fillItems k count draft names items := by
  intro R hR draft draft' filled h hfill
  dsimp only at hfill ⊢
  induction names generalizing draft draft' items with
  | nil =>
    cases items with
    | nil =>
      rw [fillItems] at hfill ⊢
      cases hfill
      exact ⟨draft', rfl, h⟩
    | cons v items =>
      rw [fillItems] at hfill
      cases hfill
  | cons name names ih =>
    cases items with
    | nil =>
      rw [fillItems] at hfill
      cases hfill
    | cons v items =>
      rw [fillItems_cons] at hfill ⊢
      obtain ⟨next, hnext, hfill⟩ := bind_eq_ok.mp hfill
      obtain ⟨next', hnext', hkept⟩ := respects_fillWith name (fun place => contentOfValue place v) hR h hnext
      dsimp only at hnext'
      obtain ⟨filled', hfill', hkept'⟩ := ih items hkept hfill
      refine ⟨filled', ?_, hkept'⟩
      rw [hnext', ok_bind, hfill']

/-! ### Kinds -/

/-- Filling in a record leaves it the record it is, of the kind it has. -/
theorem simulation_kind (k : Kind) : Simulation fun draft draft' => draft' = draft ∧ draft.kind = k where
  slot_cases := by
    rintro _ draft ⟨rfl, hkind⟩ name
    cases hslot : draft.slot name with
    | unknown => exact .inl ⟨rfl, rfl⟩
    | filled => exact .inr (.inl ⟨rfl, rfl⟩)
    | vacant place fill =>
      refine .inr (.inr ⟨place, fill, fill, rfl, rfl, fun content => ⟨rfl, ?_⟩⟩)
      rw [kind_fill hslot, hkind]

/-! ### Records that differ in one node -/

/-- Two records that are alike but for the only statement of a program, or for the left operand. -/
inductive Differ (inner inner' : Node) : Draft → Draft → Prop where
  | body : Differ inner inner' (program (some [inner])) (program (some [inner']))
  | left (right? : Option Node) (operator? : Option String) :
    Differ inner inner' (binary ⟨some inner, right?, operator?⟩) (binary ⟨some inner', right?, operator?⟩)

theorem simulation_differ (inner inner' : Node) : Simulation (Differ inner inner') where
  slot_cases := by
    intro draft draft' h name
    cases h with
    | body =>
      by_cases hbody : name = "body"
      · subst hbody
        exact .inr (.inl ⟨rfl, rfl⟩)
      · exact .inl ⟨by rw [slot, if_neg hbody], by rw [slot, if_neg hbody]⟩
    | left right? operator? =>
      by_cases hleft : name = "left"
      · subst hleft
        exact .inr (.inl ⟨rfl, rfl⟩)
      by_cases hright : name = "right"
      · subst hright
        cases right? with
        | none => exact .inr (.inr ⟨_, _, _, rfl, rfl, fun content => .left (some content) operator?⟩)
        | some right => exact .inr (.inl ⟨rfl, rfl⟩)
      by_cases hoperator : name = "operator"
      · subst hoperator
        cases operator? with
        | none => exact .inr (.inr ⟨_, _, _, rfl, rfl, fun content => .left right? (some content)⟩)
        | some operator => exact .inr (.inl ⟨rfl, rfl⟩)
      · refine .inl ⟨?_, ?_⟩
        · rw [slot, if_neg hleft, if_neg hright, if_neg hoperator]
        · rw [slot, if_neg hleft, if_neg hright, if_neg hoperator]

end Draft

theorem Node.kind_ofItems {k : Kind} {items : List Value} {node : Node} (h : Node.ofItems k items = .ok node) :
    node.kind = k := by
  obtain ⟨last, hlast, hfinish⟩ := bind_eq_ok.mp h
  obtain ⟨-, -, -, hkind⟩ :=
    Draft.respects_fillItems k _ k.fields items (Draft.simulation_kind k) ⟨rfl, Draft.kind_blank k⟩ hlast
  exact (Draft.kind_finish hfinish).trans hkind

end SyntaxTree
