import SyntaxTree.Json.Decode

/-!
What filling a field does. A vacant slot names one of seven fields, each of one kind of record and with its own
place, and filling it sets that field and no other.
-/

namespace SyntaxTree

open Json

namespace Draft

/-- The field of the given name is vacant, and `fill` fills it with the contents of its place. -/
inductive Fills : Draft → String → (place : Place) → (place.Content → Draft) → Prop where
  | body : Fills (program none) "body" .nodes fun body => program (some body)
  | number : Fills (number none) "value" .number fun value => number (some value)
  | symbol : Fills (identifier none) "symbol" .text fun symbol => identifier (some symbol)
  | left (parts : Builder) (h : parts.left? = none) :
    Fills (binary parts) "left" .node fun node => binary (parts.left node)
  | right (parts : Builder) (h : parts.right? = none) :
    Fills (binary parts) "right" .node fun node => binary (parts.right node)
  | operator (parts : Builder) (h : parts.operator? = none) :
    Fills (binary parts) "operator" .text fun text => binary (parts.operator text)
  | text : Fills (string none) "value" .text fun value => string (some value)

theorem eq_none_of_vacant {α : Type} {current : Option α} {place place' : Place} {f : place.Content → Draft}
    {fill : place'.Content → Draft} (h : Slot.of current place f = .vacant place' fill) :
    current = none ∧ ∃ heq : place = place', heq ▸ f = fill := by
  cases current with
  | some _ => cases h
  | none =>
    cases h
    exact ⟨rfl, rfl, rfl⟩

theorem fills_of_slot {draft : Draft} {name : String} {place : Place} {fill : place.Content → Draft}
    (h : draft.slot name = .vacant place fill) : Fills draft name place fill := by
  cases draft with
  | program body? =>
    rw [slot] at h
    split at h
    · obtain ⟨rfl, rfl, rfl⟩ := eq_none_of_vacant h
      subst name
      exact .body
    · cases h
  | number value? =>
    rw [slot] at h
    split at h
    · obtain ⟨rfl, rfl, rfl⟩ := eq_none_of_vacant h
      subst name
      exact .number
    · cases h
  | null => cases h
  | identifier symbol? =>
    rw [slot] at h
    split at h
    · obtain ⟨rfl, rfl, rfl⟩ := eq_none_of_vacant h
      subst name
      exact .symbol
    · cases h
  | binary parts =>
    rw [slot] at h
    split at h
    · obtain ⟨hnone, rfl, rfl⟩ := eq_none_of_vacant h
      subst name
      exact .left parts hnone
    · split at h
      · obtain ⟨hnone, rfl, rfl⟩ := eq_none_of_vacant h
        subst name
        exact .right parts hnone
      · split at h
        · obtain ⟨hnone, rfl, rfl⟩ := eq_none_of_vacant h
          subst name
          exact .operator parts hnone
        · cases h
  | string value? =>
    rw [slot] at h
    split at h
    · obtain ⟨rfl, rfl, rfl⟩ := eq_none_of_vacant h
      subst name
      exact .text
    · cases h

theorem require_eq_ok {α : Type} {name : String} {field? : Option α} {field : α}
    (h : require name field? = .ok field) : field? = some field := by
  cases field? with
  | none => cases h
  | some _ =>
    cases h
    rfl

/-! ### Kinds -/

def kind : Draft → Kind
  | program _ => .program
  | number _ => .numericLiteral
  | null => .nullLiteral
  | identifier _ => .identifier
  | binary _ => .binaryExpression
  | string _ => .stringLiteral

theorem kind_blank (k : Kind) : (blank k).kind = k := by cases k <;> rfl

theorem kind_fill {draft : Draft} {name : String} {place : Place} {fill : place.Content → Draft}
    (h : draft.slot name = .vacant place fill) (content : place.Content) : (fill content).kind = draft.kind := by
  cases fills_of_slot h <;> rfl

theorem kind_finish {draft : Draft} {node : Node} (h : draft.finish = .ok node) : node.kind = draft.kind := by
  cases draft with
  | program body? =>
    cases body? <;> cases h
    rfl
  | number value? =>
    cases value? <;> cases h
    rfl
  | null =>
    cases h
    rfl
  | identifier symbol? =>
    cases symbol? <;> cases h
    rfl
  | binary parts =>
    obtain ⟨left?, right?, operator?⟩ := parts
    cases left? <;> cases right? <;> cases operator? <;> cases h
    rfl
  | string value? =>
    cases value? <;> cases h
    rfl

/-! ### Filling in by name -/

/-- Fills in the field of a name, if there is one, with what `read` finds for its place. -/
def fillWith (draft : Draft) (name : String) (read : (place : Place) → Except Fault place.Content) :
    Except Fault Draft :=
  match draft.slot name with
  | .unknown => .ok draft
  | .filled => .error (.duplicate name)
  | .vacant place fill => do .ok (fill (← read place))

theorem fillMembers_eq_foldlM (draft : Draft) (members : List (String × Value)) :
    fillMembers draft members =
      members.foldlM (fun draft member => draft.fillWith member.1 fun place => contentOfValue place member.2)
        draft := by
  induction members generalizing draft with
  | nil => rfl
  | cons member members ih =>
    rw [fillMembers, List.foldlM_cons, fillWith]
    cases draft.slot member.1 with
    | unknown => exact ih draft
    | filled => rfl
    | vacant place fill =>
      dsimp only
      rw [bind_assoc]
      congr 1
      funext content
      exact ih (fill content)

theorem fillItems_cons (k : Kind) (count : Nat) (draft : Draft) (name : String) (names : List String) (v : Value)
    (items : List Value) :
    fillItems k count draft (name :: names) (v :: items) = (do
      let draft ← draft.fillWith name fun place => contentOfValue place v
      fillItems k count draft names items) := by
  rw [fillItems, fillWith]
  cases draft.slot name with
  | unknown => rfl
  | filled => rfl
  | vacant place fill =>
    dsimp only
    rw [bind_assoc]
    rfl

end Draft

end SyntaxTree
