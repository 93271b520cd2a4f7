import SyntaxTree.Proofs.MemberOrder
import SyntaxTree.Proofs.RoundTrip

/-!
Values with their members rearranged. The members of every object may stand in another order, and further members
may stand among them under new names: a value that makes a node makes the same node then. Sorting the members is one
such rearrangement, so a tree survives being kept as a value with sorted members, however deep it is.
-/

namespace SyntaxTree

open Json

namespace Json

namespace Value

mutual

/-- The second value is the first one rearranged: the members of every object stand in any order, among further
members with names that the object does not have. -/
inductive Rearranged : Value → Value → Prop where
  | scalar {v : Value} (h : v.depth = 0) : Rearranged v v
  | array {items items' : List Value} (h : ItemsRearranged items items') : Rearranged (.array items) (.array items')
  | object {members own extra members' : List (String × Value)} (hown : MembersRearranged members own)
    (hextra : ∀ member ∈ extra, member.1 ∉ members.map Prod.fst) (hperm : members'.Perm (own ++ extra)) :
    Rearranged (.object members) (.object members')

inductive ItemsRearranged : List Value → List Value → Prop where
  | nil : ItemsRearranged [] []
  | cons {v w : Value} {items items' : List Value} (h : Rearranged v w) (hrest : ItemsRearranged items items') :
    ItemsRearranged (v :: items) (w :: items')

inductive MembersRearranged : List (String × Value) → List (String × Value) → Prop where
  | nil : MembersRearranged [] []
  | cons {name : String} {v w : Value} {members members' : List (String × Value)} (h : Rearranged v w)
    (hrest : MembersRearranged members members') : MembersRearranged ((name, v) :: members) ((name, w) :: members')

end

/-- What the first value stands for in any place, the second one does too. -/
def KeepsContent (v w : Value) : Prop :=
  ∀ place content, contentOfValue place v = .ok content → contentOfValue place w = .ok content

theorem length_rearranged {items items' : List Value} (h : ItemsRearranged items items') :
    items'.length = items.length := by
  induction items generalizing items' with
  | nil =>
    cases h
    rfl
  | cons v items ih =>
    cases h with
    | cons hv hrest => rw [List.length_cons, List.length_cons, ih hrest]

/-! ### Tags -/

theorem kindOfValue_rearranged {v w : Value} {k : Kind} (h : v.Rearranged w) (hk : kindOfValue v = .ok k) :
    kindOfValue w = .ok k := by
  cases h with
  | scalar h => exact hk
  | array h => cases hk
  | object hown hextra hperm => cases hk

theorem tagOfMembers_rearranged {members own : List (String × Value)} {tag? : Option Kind} {k : Kind}
    (h : MembersRearranged members own) (htag : tagOfMembers tag? members = .ok k) :
    tagOfMembers tag? own = .ok k := by
  induction members generalizing own tag? with
  | nil =>
    cases h
    exact htag
  | cons member members ih =>
    cases h with
    | cons hv hrest =>
      rw [tagOfMembers] at htag ⊢
      split at htag
      · rename_i hname
        rw [if_pos hname]
        split at htag
        · cases htag
        · rename_i hfirst
          obtain ⟨k', hk', htag⟩ := bind_eq_ok.mp htag
          rw [if_neg hfirst, kindOfValue_rearranged hv hk', ok_bind]
          exact ih hrest htag
      · rename_i hname
        rw [if_neg hname]
        exact ih hrest htag

/-! ### Fields -/

section

variable {draft filled : Draft}

/-- A field that a value fills is filled in the same way by what keeps its content. -/
theorem KeepsContent.fillWith {v w : Value} (h : v.KeepsContent w) {name : String}
    (hfill : draft.fillWith name (fun place => contentOfValue place v) = .ok filled) :
    draft.fillWith name (fun place => contentOfValue place w) = .ok filled := by
  rw [Draft.fillWith] at hfill ⊢
  cases hslot : draft.slot name with
  | unknown =>
    rw [hslot] at hfill
    exact hfill
  | filled =>
    rw [hslot] at hfill
    cases hfill
  | vacant place fill =>
    rw [hslot] at hfill
    obtain ⟨content, hcontent, hfill⟩ := bind_eq_ok.mp hfill
    dsimp only
    rw [h place content hcontent, ok_bind, hfill]

theorem fillMembers_rearranged {members own : List (String × Value)}
    (hkeeps : ∀ member ∈ members, ∀ w, member.2.Rearranged w → member.2.KeepsContent w)
    (h : MembersRearranged members own) (hfill : fillMembers draft members = .ok filled) :
    fillMembers draft own = .ok filled := by
  rw [Draft.fillMembers_eq_foldlM] at hfill ⊢
  induction members generalizing own draft with
  | nil =>
    cases h
    exact hfill
  | cons member members ih =>
    cases h with
    | cons hv hrest =>
      rw [List.foldlM_cons] at hfill ⊢
      obtain ⟨next, hnext, hfill⟩ := bind_eq_ok.mp hfill
      rw [(hkeeps _ List.mem_cons_self _ hv).fillWith hnext, ok_bind]
      exact ih (fun member h => hkeeps member (List.mem_cons_of_mem _ h)) hrest hfill

theorem fillItems_rearranged {k : Kind} {count : Nat} {names : List String} {items items' : List Value}
    (hkeeps : ∀ item ∈ items, ∀ w, item.Rearranged w → item.KeepsContent w)
    (h : ItemsRearranged items items') (hfill : fillItems k count draft names items = .ok filled) :
    fillItems k count draft names items' = .ok filled := by
  induction items generalizing items' draft names with
  | nil =>
    cases h
    exact hfill
  | cons v items ih =>
    cases h with
    | cons hv hrest =>
      cases names with
      | nil =>
        rw [fillItems] at hfill
        cases hfill
      | cons name names =>
        rw [Draft.fillItems_cons] at hfill ⊢
        obtain ⟨next, hnext, hfill⟩ := bind_eq_ok.mp hfill
        rw [(hkeeps _ List.mem_cons_self _ hv).fillWith hnext, ok_bind]
        exact ih (fun item h => hkeeps item (List.mem_cons_of_mem _ h)) hrest hfill

end

theorem nodesOfValues_rearranged {items items' : List Value} {nodes : List Node}
    (hkeeps : ∀ item ∈ items, ∀ w, item.Rearranged w → item.KeepsContent w)
    (h : ItemsRearranged items items') (hnodes : nodesOfValues items = .ok nodes) :
    nodesOfValues items' = .ok nodes := by
  induction items generalizing items' nodes with
  | nil =>
    cases h
    exact hnodes
  | cons v items ih =>
    cases h with
    | @cons _ w _ items' hv hrest =>
      rw [nodesOfValues] at hnodes ⊢
      obtain ⟨node, hnode, hnodes⟩ := bind_eq_ok.mp hnodes
      obtain ⟨rest, hrestNodes, hnodes⟩ := bind_eq_ok.mp hnodes
      rw [hkeeps v List.mem_cons_self w hv .node node hnode, ok_bind,
        ih (fun item h => hkeeps item (List.mem_cons_of_mem _ h)) hrest hrestNodes, ok_bind]
      exact hnodes

/-! ### Nodes -/

theorem ofValue_object_rearranged {members own extra members' : List (String × Value)} {node : Node}
    (hkeeps : ∀ member ∈ members, ∀ w, member.2.Rearranged w → member.2.KeepsContent w)
    (hown : MembersRearranged members own) (hextra : ∀ member ∈ extra, member.1 ∉ members.map Prod.fst)
    (hperm : members'.Perm (own ++ extra)) (h : Node.ofValue (.object members) = .ok node) :
    Node.ofValue (.object members') = .ok node := by
  rw [Node.ofValue_object] at h ⊢
  obtain ⟨k, htag, h⟩ := bind_eq_ok.mp h
  obtain ⟨draft, hfill, hfinish⟩ := bind_eq_ok.mp h
  -- The members of the object include its tag and all fields of its kind, so the further ones are neither.
  have hnotTag : ∀ member ∈ extra, member.1 ≠ Node.tagName := by
    rintro member hmember hname
    exact hextra member hmember (hname ▸ mem_names_of_tagOfMembers htag)
  have hnoField : ∀ member ∈ extra, member.1 ∉ (Draft.blank k).kind.fields := by
    intro member hmember hfield
    rw [Draft.kind_blank] at hfield
    exact hextra member hmember (Draft.mem_names_of_finish hfill hfinish hfield)
  have htag' : tagOfMembers none members' = .ok k :=
    tagOfMembers_perm hperm.symm (tagOfMembers_append hnotTag (tagOfMembers_rearranged hown htag))
  have hfill' : fillMembers (.blank k) members' = .ok draft :=
    Draft.fillMembers_perm hperm.symm (fillMembers_append hnoField (fillMembers_rearranged hkeeps hown hfill))
  rw [htag', ok_bind, Node.ofMembers, hfill', ok_bind, hfinish]

theorem ofValue_array_rearranged {items items' : List Value} {node : Node}
    (hkeeps : ∀ item ∈ items, ∀ w, item.Rearranged w → item.KeepsContent w)
    (h : ItemsRearranged items items') (hnode : Node.ofValue (.array items) = .ok node) :
    Node.ofValue (.array items') = .ok node := by
  cases h with
  | nil => exact hnode
  | @cons tag tag' items items' htag hrest =>
    rw [Node.ofValue_array_cons] at hnode ⊢
    obtain ⟨k, hk, hnode⟩ := bind_eq_ok.mp hnode
    obtain ⟨draft, hfill, hfinish⟩ := bind_eq_ok.mp hnode
    have hfill' : fillItems k items'.length (.blank k) k.fields items' = .ok draft := by
      rw [length_rearranged hrest]
      exact fillItems_rearranged (fun item hitem => hkeeps item (List.mem_cons_of_mem _ hitem)) hrest hfill
    rw [kindOfValue_rearranged htag hk, ok_bind, Node.ofItems, hfill', ok_bind, hfinish]

/-- A value that stands for something in a place stands for the same if it is rearranged. -/
theorem keepsContent_of_rearranged {v w : Value} (h : v.Rearranged w) : v.KeepsContent w := by
  induction v using Value.induction generalizing w with
  | array items ih =>
    have hkeeps := fun item hitem w => ih item hitem (w := w)
    cases h with
    | scalar h => cases h
    | array h =>
      intro place content hcontent
      cases place with
      | node => exact ofValue_array_rearranged hkeeps h hcontent
      | nodes =>
        rw [contentOfValue] at hcontent ⊢
        exact nodesOfValues_rearranged hkeeps h hcontent
      | text =>
        rw [contentOfValue] at hcontent
        cases hcontent
      | number =>
        rw [contentOfValue] at hcontent
        cases hcontent
  | object members ih =>
    have hkeeps := fun member hmember w => ih member hmember (w := w)
    cases h with
    | scalar h => cases h
    | object hown hextra hperm =>
      intro place content hcontent
      cases place with
      | node => exact ofValue_object_rearranged hkeeps hown hextra hperm hcontent
      | nodes =>
        rw [contentOfValue] at hcontent
        · cases hcontent
        · simp
      | text =>
        rw [contentOfValue] at hcontent
        cases hcontent
      | number =>
        rw [contentOfValue] at hcontent
        cases hcontent
  | null => cases h; exact fun _ _ hcontent => hcontent
  | bool value => cases h; exact fun _ _ hcontent => hcontent
  | integer n => cases h; exact fun _ _ hcontent => hcontent
  | float x => cases h; exact fun _ _ hcontent => hcontent
  | string text => cases h; exact fun _ _ hcontent => hcontent

/-! ### Sorted members -/

theorem insertMember_perm (name : String) (v : Value) (members : List (String × Value)) :
    (insertMember name v members).Perm ((name, v) :: members) := by
  induction members with
  | nil => exact .refl _
  | cons member members ih =>
    rw [insertMember]
    split
    · exact .refl _
    · exact (ih.cons member).trans (.swap _ _ _)

theorem sortedMembers_perm (members : List (String × Value)) :
    (sortedMembers members).Perm (members.map fun member => (member.1, member.2.sorted)) := by
  induction members with
  | nil => exact .refl _
  | cons member members ih =>
    rw [sortedMembers, List.map_cons]
    exact (insertMember_perm _ _ _).trans (ih.cons _)

/-- Sorting the members of all objects rearranges a value. -/
theorem rearranged_sorted (v : Value) : v.Rearranged v.sorted := by
  induction v using Value.induction with
  | array items ih =>
    have hitems : ItemsRearranged items (sortedItems items) := by
      induction items with
      | nil => exact .nil
      | cons item items ih' =>
        exact .cons (ih item List.mem_cons_self) (ih' fun item h => ih item (List.mem_cons_of_mem _ h))
    exact .array hitems
  | object members ih =>
    have hown : MembersRearranged members (members.map fun member => (member.1, member.2.sorted)) := by
      induction members with
      | nil => exact .nil
      | cons member members ih' =>
        exact .cons (ih member List.mem_cons_self) (ih' fun member h => ih member (List.mem_cons_of_mem _ h))
    refine .object hown (List.forall_mem_nil _) ?_
    rw [List.append_nil]
    exact sortedMembers_perm members
  | null => exact .scalar rfl
  | bool value => exact .scalar rfl
  | integer n => exact .scalar rfl
  | float x => exact .scalar rfl
  | string text => exact .scalar rfl

mutual

/-- Whether the members of every object stand in alphabetical order. -/
def InOrder : Value → Prop
  | array items => ItemsInOrder items
  | object members => (members.map Prod.fst).Pairwise (· ≤ ·) ∧ MembersInOrder members
  | _ => True

def ItemsInOrder : List Value → Prop
  | [] => True
  | item :: items => item.InOrder ∧ ItemsInOrder items

def MembersInOrder : List (String × Value) → Prop
  | [] => True
  | (_, v) :: members => v.InOrder ∧ MembersInOrder members

end

theorem inOrder_insertMember {name : String} {v : Value} {members : List (String × Value)} (hv : v.InOrder)
    (hsorted : (members.map Prod.fst).Pairwise (· ≤ ·)) (h : MembersInOrder members) :
    ((insertMember name v members).map Prod.fst).Pairwise (· ≤ ·) ∧ MembersInOrder (insertMember name v members) := by
  induction members with
  | nil => simp [insertMember, MembersInOrder, hv]
  | cons member members ih =>
    obtain ⟨name', v'⟩ := member
    obtain ⟨hv', hrest⟩ := h
    obtain ⟨hle, hsorted⟩ := List.pairwise_cons.mp hsorted
    rw [insertMember]
    split
    · rename_i hlt
      have hfirst : name ≤ name' := Std.le_of_lt hlt
      have hall : ∀ other ∈ name' :: members.map Prod.fst, name ≤ other := by
        intro other hother
        rcases List.mem_cons.mp hother with rfl | hother
        · exact hfirst
        · exact String.le_trans hfirst (hle other hother)
      exact ⟨.cons hall (.cons hle hsorted), hv, hv', hrest⟩
    · rename_i hlt
      have hfirst : name' ≤ name := String.not_lt.mp hlt
      have hall : ∀ other ∈ (insertMember name v members).map Prod.fst, name' ≤ other := by
        intro other hother
        have hnames := ((insertMember_perm name v members).map Prod.fst).mem_iff.mp hother
        rcases List.mem_cons.mp hnames with rfl | hother
        · exact hfirst
        · exact hle other hother
      obtain ⟨hinserted, hmembers⟩ := ih hsorted hrest
      exact ⟨.cons hall hinserted, hv', hmembers⟩

/-- Sorting leaves the members of every object in alphabetical order. -/
theorem inOrder_sorted (v : Value) : v.sorted.InOrder := by
  induction v using Value.induction with
  | array items ih =>
    have hitems : ItemsInOrder (sortedItems items) := by
      induction items with
      | nil => trivial
      | cons item items ih' =>
        exact ⟨ih item List.mem_cons_self, ih' fun item h => ih item (List.mem_cons_of_mem _ h)⟩
    exact hitems
  | object members ih =>
    have hmembers : ((sortedMembers members).map Prod.fst).Pairwise (· ≤ ·) ∧
        MembersInOrder (sortedMembers members) := by
      induction members with
      | nil => exact ⟨.nil, trivial⟩
      | cons member members ih' =>
        obtain ⟨hsorted, hrest⟩ := ih' fun member h => ih member (List.mem_cons_of_mem _ h)
        exact inOrder_insertMember (ih member List.mem_cons_self) hsorted hrest
    exact hmembers
  | null => trivial
  | bool value => trivial
  | integer n => trivial
  | float x => trivial
  | string text => trivial

end Value

end Json

namespace Node

/-- Kept as a value whose members are in alphabetical order, a tree of any depth makes itself again, with canonical
numbers; so it is rendered as before, and equal to what it was unless some number is no number. -/
theorem value_round_trip (node : Node) :
    node.toValue.sorted.InOrder ∧ node.toValue.Rearranged node.toValue.sorted ∧
    node.reloadValue = .ok node.canonical ∧
    (node.canonical.eqv node = true ↔ node.hasNaN = false) ∧ node.canonical.text = node.text := by
  have hsorted : node.toValue.Rearranged node.toValue.sorted := node.toValue.rearranged_sorted
  refine ⟨node.toValue.inOrder_sorted, hsorted, ?_, ?_, node.text_canonical⟩
  · exact Value.keepsContent_of_rearranged hsorted .node node.canonical (ofValue_toValue node)
  · rw [eqv_canonical, Bool.not_eq_true']

end Node

end SyntaxTree
