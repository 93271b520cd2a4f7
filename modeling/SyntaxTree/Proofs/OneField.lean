import SyntaxTree.Proofs.Frames
import SyntaxTree.Proofs.Mistakes

/-!
One field of a record among the others. Whatever goes into the field, the others are filled in as before, so a
record that is finished with one content of the field is finished with every other, and is the same node but for
that content. Where the field cannot be read, its fault is that of the record.
-/

namespace SyntaxTree

open Json

namespace Draft

section

variable {draft : Draft} {name name' : String} {place place' : Place} {fill : place.Content → Draft}
  {fill' : place'.Content → Draft}

/-- Of two vacant fields, each is still vacant once the other is filled, and the order makes no difference. -/
theorem fills_both (h : Fills draft name place fill) (h' : Fills draft name' place' fill') (hname : name' ≠ name) :
    ∃ both : place.Content → place'.Content → Draft, (∀ content, Fills (fill content) name' place' (both content)) ∧
      ∀ content', Fills (fill' content') name place fun content => both content content' := by
  cases h with
  | body =>
    cases h'
    exact absurd rfl hname
  | number =>
    cases h'
    exact absurd rfl hname
  | symbol =>
    cases h'
    exact absurd rfl hname
  | text =>
    cases h'
    exact absurd rfl hname
  | left parts hleft =>
    cases h' with
    | left => exact absurd rfl hname
    | right _ hright =>
      exact ⟨_, fun node => .right (parts.left node) hright, fun node => .left (parts.right node) hleft⟩
    | operator _ hoperator =>
      exact ⟨_, fun node => .operator (parts.left node) hoperator, fun text => .left (parts.operator text) hleft⟩
  | right parts hright =>
    cases h' with
    | right => exact absurd rfl hname
    | left _ hleft => exact ⟨_, fun node => .left (parts.right node) hleft, fun node => .right (parts.left node) hright⟩
    | operator _ hoperator =>
      exact ⟨_, fun node => .operator (parts.right node) hoperator, fun text => .right (parts.operator text) hright⟩
  | operator parts hoperator =>
    cases h' with
    | operator => exact absurd rfl hname
    | left _ hleft =>
      exact ⟨_, fun text => .left (parts.operator text) hleft, fun node => .operator (parts.left node) hoperator⟩
    | right _ hright =>
      exact ⟨_, fun text => .right (parts.operator text) hright, fun node => .operator (parts.right node) hoperator⟩

end

/-- Two records that are alike but for the content of one field. -/
def AlikeBut (name : String) (place : Place) (content content' : place.Content) (draft draft' : Draft) : Prop :=
  ∃ base fill, Fills base name place fill ∧ draft = fill content ∧ draft' = fill content'

theorem simulation_alikeBut (name : String) (place : Place) (content content' : place.Content) :
    Simulation (AlikeBut name place content content') where
  slot_cases := by
    rintro _ _ ⟨base, fill, hfills, rfl, rfl⟩ name'
    have hkind : ∀ content, (fill content).kind = base.kind := kind_fill (slot_of_fills hfills)
    cases hslot : base.slot name' with
    | unknown =>
      rw [slot_eq_unknown_iff] at hslot
      exact .inl ⟨slot_eq_unknown_iff.mpr (by rwa [hkind]), slot_eq_unknown_iff.mpr (by rwa [hkind])⟩
    | filled => exact .inr (.inl ⟨slot_fill_of_filled hfills content hslot, slot_fill_of_filled hfills content' hslot⟩)
    | vacant place' fill' =>
      by_cases hname : name' = name
      · subst hname
        exact .inr (.inl ⟨slot_fill_self hfills content, slot_fill_self hfills content'⟩)
      · obtain ⟨both, hfirst, hsecond⟩ := fills_both hfills (fills_of_slot hslot) hname
        refine .inr (.inr ⟨place', both content, both content', slot_of_fills (hfirst content),
          slot_of_fills (hfirst content'), fun other => ?_⟩)
        exact ⟨fill' other, fun content => both content other, hsecond other, rfl, rfl⟩

end Draft

/-! ### Nodes with an open field -/

/-- The nodes of a kind that one of their fields, in which numbers or nodes stand, makes with what is in the others. -/
inductive Puts : Kind → String → (place : Place) → (place.Content → Node) → Prop where
  | value : Puts .numericLiteral "value" .number .number
  | body : Puts .program "body" .nodes .program
  | left (right : Node) (operator : String) :
    Puts .binaryExpression "left" .node fun left => .binary left operator right
  | right (left : Node) (operator : String) :
    Puts .binaryExpression "right" .node fun right => .binary left operator right

namespace Puts

variable {k : Kind} {name : String} {place : Place} {put : place.Content → Node}

theorem kind_put (h : Puts k name place put) (content : place.Content) : (put content).kind = k := by
  cases h <;> rfl

theorem mem_fields (h : Puts k name place put) : name ∈ k.fields := by
  cases h <;> decide

theorem ne_tagName (h : Puts k name place put) : name ≠ Node.tagName := by
  cases h <;> decide

/-- The field is vacant for its own place. -/
theorem place_eq (h : Puts k name place put) {draft : Draft} {name' : String} {place' : Place}
    {fill : place'.Content → Draft} (hfills : Draft.Fills draft name' place' fill)
    (hname : name' = name) (hkind : draft.kind = k) : place' = place := by
  cases h with
  | value =>
    cases hfills with
    | number => rfl
    | _ => cases hkind
  | body =>
    cases hfills with
    | body => rfl
    | _ => cases hkind
  | left right operator =>
    cases hfills with
    | left => rfl
    | right => rfl
    | operator => exact absurd hname (by decide)
    | _ => cases hkind
  | right left operator =>
    cases hfills with
    | left => rfl
    | right => rfl
    | operator => exact absurd hname (by decide)
    | _ => cases hkind

/-- A record that is finished by one content of the field is finished by every other. -/
theorem finish (h : Puts k name place put) {draft : Draft} {name' : String} {fill : place.Content → Draft}
    (hfills : Draft.Fills draft name' place fill) (hname : name' = name) {content content₀ : place.Content}
    (hfinish : (fill content).finish = .ok (put content₀)) :
    content = content₀ ∧ ∀ content', (fill content').finish = .ok (put content') := by
  cases h with
  | value =>
    cases hfills
    cases hfinish
    exact ⟨rfl, fun _ => rfl⟩
  | body =>
    cases hfills
    cases hfinish
    exact ⟨rfl, fun _ => rfl⟩
  | left right operator =>
    cases hfills with
    | left parts _ =>
      obtain ⟨_, right?, operator?⟩ := parts
      cases right? <;> cases operator? <;> cases hfinish
      exact ⟨rfl, fun _ => rfl⟩
    | right => exact absurd hname (by decide)
  | right left operator =>
    cases hfills with
    | right parts _ =>
      obtain ⟨left?, _, operator?⟩ := parts
      cases left? <;> cases operator? <;> cases hfinish
      exact ⟨rfl, fun _ => rfl⟩
    | left => exact absurd hname (by decide)

/-- A record into which one field is filled and then some others is a node with what the field holds. -/
theorem fillWith (h : Puts k name place put) {draft : Draft} {run : Draft → Except Fault Draft}
    (hrun : Draft.Respects run) {read₀ : (place : Place) → Except Fault place.Content} {content₀ : place.Content}
    (hopen : (do
      let filled ← draft.fillWith name read₀
      let last ← run filled
      last.finish) = .ok (put content₀)) :
    read₀ place = .ok content₀ ∧ ∀ read : (place : Place) → Except Fault place.Content, (do
      let filled ← draft.fillWith name read
      let last ← run filled
      last.finish) = (do .ok (put (← read place))) := by
  obtain ⟨filled, hfill, hopen⟩ := bind_eq_ok.mp hopen
  obtain ⟨last, hlast, hfinish⟩ := bind_eq_ok.mp hopen
  have hkind : draft.kind = k := by
    obtain ⟨-, -, -, hkept⟩ := hrun (Draft.simulation_kind filled.kind) ⟨rfl, rfl⟩ hlast
    rw [← h.kind_put content₀, Draft.kind_finish hfinish, hkept, Draft.kind_fillWith hfill]
  cases hslot : draft.slot name with
  | unknown =>
    rw [Draft.slot_eq_unknown_iff, hkind] at hslot
    exact absurd h.mem_fields hslot
  | filled =>
    rw [Draft.fillWith, hslot] at hfill
    cases hfill
  | vacant place' fill =>
    have hfills := Draft.fills_of_slot hslot
    obtain rfl := h.place_eq hfills rfl hkind
    rw [Draft.fillWith_vacant hslot] at hfill
    obtain ⟨content, hcontent, hfill⟩ := bind_eq_ok.mp hfill
    cases hfill
    have hrest : ∀ content', ∃ last', run (fill content') = .ok last' ∧
        Draft.AlikeBut name place' content content' last last' := by
      intro content'
      exact hrun (Draft.simulation_alikeBut name place' content content') ⟨draft, fill, hfills, rfl, rfl⟩ hlast
    have hput : ∀ content', content = content₀ ∧
        (do (← run (fill content')).finish) = Except.ok (put content') := by
      intro content'
      obtain ⟨last', hlast', base, fill', hfills', rfl, rfl⟩ := hrest content'
      obtain ⟨heq, hall⟩ := h.finish hfills' rfl hfinish
      exact ⟨heq, by rw [hlast', ok_bind, hall]⟩
    refine ⟨by rw [hcontent, (hput content).1], fun read => ?_⟩
    rw [Draft.fillWith_vacant hslot, bind_assoc]
    apply bind_congr
    intro content'
    exact (hput content').2

end Puts

end SyntaxTree
