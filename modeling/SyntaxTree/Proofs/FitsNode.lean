import SyntaxTree.Proofs.Fits
import SyntaxTree.Proofs.Slots

/-!
Trees that are read fit. The fields of a record are filled with what fits below it, whether it comes from a
text or from a value, so a node that is finished fits one bracket further out.
-/

namespace SyntaxTree

open Json

/-! ### Trees -/

/-- A tree that may stand where there is room for `room` brackets, and whose numbers are canonical. -/
structure Node.Fits (room : Nat) (node : Node) : Prop where
  jsonDepth_le : node.jsonDepth ≤ room
  canonical_eq : node.canonical = node

namespace Node

theorem fits_program {room : Nat} {body : List Node} (h : ∀ node ∈ body, node.Fits room) :
    (program body).Fits (room + 2) := by
  have hbody : bodyDepth body ≤ room ∧ canonicalAll body = body := by
    induction body with
    | nil => exact ⟨Nat.zero_le room, rfl⟩
    | cons node nodes ih =>
      obtain ⟨hdepth, hcanonical⟩ := h node List.mem_cons_self
      obtain ⟨hdepths, hcanonicals⟩ := ih fun node hnode => h node (List.mem_cons_of_mem _ hnode)
      exact ⟨Nat.max_le.mpr ⟨hdepth, hdepths⟩, by rw [canonicalAll, hcanonical, hcanonicals]⟩
  exact ⟨Nat.add_le_add_right hbody.1 2, congrArg program hbody.2⟩

theorem fits_binary {room : Nat} {left right : Node} (operator : String) (hleft : left.Fits room)
    (hright : right.Fits room) : (binary left operator right).Fits (room + 1) where
  jsonDepth_le := Nat.succ_le_succ (Nat.max_le.mpr ⟨hleft.jsonDepth_le, hright.jsonDepth_le⟩)
  canonical_eq := by rw [canonical, hleft.canonical_eq, hright.canonical_eq]

end Node

/-! ### Fields -/

/-- What a field holds fits below a record that is given room for `room` brackets inside. -/
def Place.Fits (room : Nat) : (place : Place) → place.Content → Prop
  | .node, tree => Node.Fits room tree
  | .nodes, body => ∃ inner, room = inner + 1 ∧ ∀ tree ∈ body, Node.Fits inner tree
  | .text, _ => True
  | .number, x => x.canonical = x

/-- Every field read so far fits. -/
def Draft.Fits (room : Nat) : Draft → Prop
  | program body? => ∀ body ∈ body?, Place.Fits room .nodes body
  | number value? => ∀ x ∈ value?, Place.Fits room .number x
  | binary parts => (∀ node ∈ parts.left?, Node.Fits room node) ∧ ∀ node ∈ parts.right?, Node.Fits room node
  | null | identifier _ | string _ => True

namespace Draft

variable {room : Nat} {draft : Draft}

theorem fits_blank (room : Nat) (k : Kind) : (blank k).Fits room := by
  cases k <;> simp [blank, Fits]

/-- A field that is filled with what fits leaves a record that fits. -/
theorem fits_fill (hdraft : draft.Fits room) {name : String} {place : Place} {fill : place.Content → Draft}
    (hslot : draft.slot name = .vacant place fill) {content : place.Content} (hcontent : place.Fits room content) :
    (fill content).Fits room := by
  cases fills_of_slot hslot with
  | body =>
    intro body hbody
    cases hbody
    exact hcontent
  | number =>
    intro x hx
    cases hx
    exact hcontent
  | symbol => trivial
  | left parts h =>
    refine ⟨?_, hdraft.2⟩
    intro node hnode
    cases hnode
    exact hcontent
  | right parts h =>
    refine ⟨hdraft.1, ?_⟩
    intro node hnode
    cases hnode
    exact hcontent
  | operator parts h => exact hdraft
  | text => trivial

theorem fits_fillWith (hdraft : draft.Fits room) {name : String}
    {read : (place : Place) → Except Fault place.Content}
    (hread : ∀ place content, read place = .ok content → Place.Fits room place content) {draft' : Draft}
    (h : draft.fillWith name read = .ok draft') : draft'.Fits room ∧ draft'.kind = draft.kind := by
  unfold fillWith at h
  cases hslot : draft.slot name with
  | unknown =>
    rw [hslot] at h
    cases h
    exact ⟨hdraft, rfl⟩
  | filled =>
    rw [hslot] at h
    cases h
  | vacant place fill =>
    rw [hslot] at h
    obtain ⟨content, hcontent, h⟩ := bind_eq_ok.mp h
    cases h
    exact ⟨fits_fill hdraft hslot (hread place content hcontent), kind_fill hslot content⟩

/-- A finished node fits one bracket further out than its fields. -/
theorem fits_finish (hdraft : draft.Fits room) {node : Node} (h : draft.finish = .ok node) :
    node.Fits (room + 1) := by
  have hleaf : ∀ leaf : Node, leaf.jsonDepth = 1 → leaf.canonical = leaf → leaf.Fits (room + 1) := by
    intro leaf hdepth hcanonical
    exact ⟨by omega, hcanonical⟩
  cases draft with
  | program body? =>
    obtain ⟨body, hbody, h⟩ := bind_eq_ok.mp h
    cases h
    obtain ⟨inner, rfl, hnodes⟩ := hdraft body (require_eq_ok hbody)
    exact Node.fits_program hnodes
  | number value? =>
    obtain ⟨x, hx, h⟩ := bind_eq_ok.mp h
    cases h
    have hcanonical : x.canonical = x := hdraft x (require_eq_ok hx)
    exact hleaf _ rfl (congrArg Node.number hcanonical)
  | null =>
    cases h
    exact hleaf _ rfl rfl
  | identifier symbol? =>
    obtain ⟨symbol, -, h⟩ := bind_eq_ok.mp h
    cases h
    exact hleaf _ rfl rfl
  | binary parts =>
    obtain ⟨left, hleft, h⟩ := bind_eq_ok.mp h
    obtain ⟨right, hright, h⟩ := bind_eq_ok.mp h
    obtain ⟨operator, -, h⟩ := bind_eq_ok.mp h
    cases h
    exact Node.fits_binary operator (hdraft.1 left (require_eq_ok hleft)) (hdraft.2 right (require_eq_ok hright))
  | string value? =>
    obtain ⟨value, -, h⟩ := bind_eq_ok.mp h
    cases h
    exact hleaf _ rfl rfl

end Draft

/-! ### Making sense of values that fit -/

theorem Double.canonical_of_not_isNaN {x : Double} (h : x.isNaN = false) : x.canonical = x := by
  rw [canonical, if_neg (by simp [h])]

theorem Double.canonical_of_ofName? {name : String} {x : Double} (h : Double.ofName? name = some x) :
    x.canonical = x := by
  unfold ofName? at h
  split at h
  · cases h
    decide
  · split at h
    · cases h
      decide
    · split at h
      · cases h
        decide
      · cases h

namespace Json

/-- Only numbers of a canonical pattern come from values that were read. -/
theorem canonical_of_numberOfValue {v : Value} {x : Double} (hv : v.IsReadable) (h : numberOfValue v = .ok x) :
    x.canonical = x := by
  cases v with
  | integer n =>
    cases h
    exact Double.canonical_of_not_isNaN (Decimal.isNaN_toDouble _ _)
  | float y =>
    cases h
    apply Double.canonical_of_not_isNaN
    have hfinite : x.magnitude < Double.infiniteMagnitude := of_decide_eq_true hv
    exact decide_eq_false (Nat.not_lt.mpr (Nat.le_of_lt hfinite))
  | string name =>
    rw [numberOfValue] at h
    split at h
    · rename_i y hy
      cases h
      exact Double.canonical_of_ofName? hy
    · cases h
  | null => cases h
  | bool _ => cases h
  | array _ => cases h
  | object _ => cases h

/-- Whatever place a value is made sense of in, what comes out fits there. -/
def MakesFitting (v : Value) : Prop :=
  ∀ room place content, v.Fits room → contentOfValue place v = .ok content → Place.Fits room place content

theorem fits_fillMembers {members : List (String × Value)} (hmembers : ∀ member ∈ members, MakesFitting member.2)
    {room : Nat} (hfits : ∀ member ∈ members, member.2.Fits room) {draft draft' : Draft} (hdraft : draft.Fits room)
    (h : fillMembers draft members = .ok draft') : draft'.Fits room := by
  rw [Draft.fillMembers_eq_foldlM] at h
  have hstep : ∀ member ∈ members, ∀ draft draft' : Draft, draft.Fits room →
      draft.fillWith member.1 (fun place => contentOfValue place member.2) = .ok draft' →
        draft'.Fits room ∧ True := by
    intro member hmember draft draft' hdraft hfill
    refine ⟨(Draft.fits_fillWith hdraft ?_ hfill).1, trivial⟩
    intro place content hcontent
    exact hmembers member hmember room place content (hfits member hmember) hcontent
  exact (foldlM_eq_ok hstep hdraft h).1

theorem fits_fillItems {k : Kind} {count : Nat} {items : List Value} (hitems : ∀ item ∈ items, MakesFitting item)
    {room : Nat} (hfits : ∀ item ∈ items, item.Fits room) {names : List String} {draft draft' : Draft}
    (hdraft : draft.Fits room) (h : fillItems k count draft names items = .ok draft') : draft'.Fits room := by
  induction items generalizing draft names with
  | nil =>
    cases names with
    | nil =>
      rw [fillItems] at h
      cases h
      exact hdraft
    | cons name names =>
      rw [fillItems] at h
      cases h
  | cons v items ih =>
    cases names with
    | nil =>
      rw [fillItems] at h
      cases h
    | cons name names =>
      rw [Draft.fillItems_cons] at h
      obtain ⟨next, hnext, h⟩ := bind_eq_ok.mp h
      have hplace := fun place content => hitems v List.mem_cons_self room place content (hfits v List.mem_cons_self)
      exact ih (fun item hitem => hitems item (List.mem_cons_of_mem _ hitem))
        (fun item hitem => hfits item (List.mem_cons_of_mem _ hitem)) (Draft.fits_fillWith hdraft hplace hnext).1 h

theorem fits_nodesOfValues {items : List Value} (hitems : ∀ item ∈ items, MakesFitting item) {room : Nat}
    (hfits : ∀ item ∈ items, item.Fits room) {nodes : List Node} (h : nodesOfValues items = .ok nodes) :
    ∀ node ∈ nodes, node.Fits room := by
  induction items generalizing nodes with
  | nil =>
    rw [nodesOfValues] at h
    cases h
    simp
  | cons v items ih =>
    rw [nodesOfValues] at h
    obtain ⟨node, hnode, h⟩ := bind_eq_ok.mp h
    obtain ⟨nodes', hnodes, h⟩ := bind_eq_ok.mp h
    cases h
    rw [List.forall_mem_cons]
    constructor
    · exact hitems v List.mem_cons_self room .node node (hfits v List.mem_cons_self) hnode
    · exact ih (fun item hitem => hitems item (List.mem_cons_of_mem _ hitem))
        (fun item hitem => hfits item (List.mem_cons_of_mem _ hitem)) hnodes

theorem exists_room {room depth : Nat} (h : depth + 1 ≤ room) : ∃ inner, room = inner + 1 :=
  ⟨room - 1, by omega⟩

/-- What a scalar is made sense of needs no room. -/
theorem makesFitting_scalar {v : Value} (hnode : ∀ node, contentOfValue .node v ≠ .ok node)
    (hnodes : ∀ nodes, contentOfValue .nodes v ≠ .ok nodes) : MakesFitting v := by
  intro room place content hfits h
  cases place with
  | node => exact absurd h (hnode content)
  | nodes => exact absurd h (hnodes content)
  | text => trivial
  | number =>
    rw [contentOfValue] at h
    exact canonical_of_numberOfValue hfits.readable h

/-- Sense that is made of a value that fits is something that fits. -/
theorem makesFitting (v : Value) : MakesFitting v := by
  induction v using Value.induction with
  | null => exact makesFitting_scalar (by simp [contentOfValue]) (by simp [contentOfValue])
  | bool _ => exact makesFitting_scalar (by simp [contentOfValue]) (by simp [contentOfValue])
  | integer _ => exact makesFitting_scalar (by simp [contentOfValue]) (by simp [contentOfValue])
  | float _ => exact makesFitting_scalar (by simp [contentOfValue]) (by simp [contentOfValue])
  | string _ => exact makesFitting_scalar (by simp [contentOfValue]) (by simp [contentOfValue])
  | array items ih =>
    intro room place content hfits h
    obtain ⟨inner, rfl⟩ := exists_room hfits.depth_le
    have hitems := Value.fits_array.mp hfits
    cases place with
    | node =>
      cases items with
      | nil =>
        rw [contentOfValue] at h
        cases h
      | cons tag items =>
        rw [contentOfValue] at h
        obtain ⟨k, -, h⟩ := bind_eq_ok.mp h
        obtain ⟨draft, hdraft, h⟩ := bind_eq_ok.mp h
        have hfill := fits_fillItems (fun item hitem => ih item (List.mem_cons_of_mem _ hitem))
          (fun item hitem => hitems item (List.mem_cons_of_mem _ hitem)) (Draft.fits_blank inner k) hdraft
        exact Draft.fits_finish hfill h
    | nodes =>
      rw [contentOfValue] at h
      exact ⟨inner, rfl, fits_nodesOfValues ih hitems h⟩
    | text => trivial
    | number =>
      rw [contentOfValue] at h
      cases h
  | object members ih =>
    intro room place content hfits h
    obtain ⟨inner, rfl⟩ := exists_room hfits.depth_le
    have hmembers := Value.fits_object.mp hfits
    cases place with
    | node =>
      rw [contentOfValue] at h
      obtain ⟨k, -, h⟩ := bind_eq_ok.mp h
      obtain ⟨draft, hdraft, h⟩ := bind_eq_ok.mp h
      exact Draft.fits_finish (fits_fillMembers ih hmembers (Draft.fits_blank inner k) hdraft) h
    | nodes =>
      simp [contentOfValue] at h
    | text => trivial
    | number =>
      rw [contentOfValue] at h
      cases h

theorem fits_ofMembers {k : Kind} {members : List (String × Value)} {room : Nat}
    (hfits : ∀ member ∈ members, member.2.Fits room) {node : Node} (h : Node.ofMembers k members = .ok node) :
    node.Fits (room + 1) := by
  obtain ⟨draft, hdraft, h⟩ := bind_eq_ok.mp h
  exact Draft.fits_finish
    (fits_fillMembers (fun member _ => makesFitting member.2) hfits (Draft.fits_blank room k) hdraft) h

theorem fits_ofItems {k : Kind} {items : List Value} {room : Nat} (hfits : ∀ item ∈ items, item.Fits room)
    {node : Node} (h : Node.ofItems k items = .ok node) : node.Fits (room + 1) := by
  obtain ⟨draft, hdraft, h⟩ := bind_eq_ok.mp h
  exact Draft.fits_finish
    (fits_fillItems (fun item _ => makesFitting item) hfits (Draft.fits_blank room k) hdraft) h

/-! ### Trees that are read -/

namespace Spelling

/-- A text in its place has no brackets. -/
theorem isScalar_of_textMeaning {expected : Expected} {s : Spelling} {text : String}
    (h : s.textMeaning expected = .ok text) : s.isScalar = true := by
  rcases s.scalar_or_brackets with hs | ⟨blanks, items, rfl⟩ | ⟨blanks, members, rfl⟩
  · exact hs
  · cases h
  · cases h

theorem isScalar_of_tagMeaning {s : Spelling} {k : Kind} (h : s.tagMeaning = .ok k) : s.isScalar = true := by
  obtain ⟨text, htext, -⟩ := bind_eq_ok.mp h
  exact isScalar_of_textMeaning htext

theorem fits_of_addMember {room : Nat} {parts parts' : NodeParts} {name : String} {s : Spelling}
    (hparts : ∀ member ∈ parts.members, member.2.Fits room) (h : s.addMember room parts name = .ok parts') :
    (∀ member ∈ parts'.members, member.2.Fits room) ∧ s.depth ≤ room := by
  unfold addMember at h
  split at h
  · split at h
    · cases h
    · obtain ⟨k, hk, h⟩ := bind_eq_ok.mp h
      cases h
      rw [depth_of_isScalar (isScalar_of_tagMeaning hk)]
      exact ⟨hparts, Nat.zero_le room⟩
  · obtain ⟨v, hv, h⟩ := bind_eq_ok.mp h
    cases h
    obtain ⟨hdepth, hfits⟩ := fits_of_meaning hv
    refine ⟨?_, hdepth⟩
    intro member hmember
    rcases List.mem_cons.mp hmember with rfl | hmember
    · exact hfits
    · exact hparts member hmember

/-- A node that a spelling means fits the room it was read in, and so do the brackets of the spelling. -/
theorem fits_of_nodeMeaning {room : Nat} {s : Spelling} {node : Node} (h : s.nodeMeaning room = .ok node) :
    s.depth ≤ room ∧ node.Fits room := by
  rcases s.scalar_or_brackets with hs | ⟨blanks, items, rfl⟩ | ⟨blanks, members, rfl⟩
  · rw [nodeMeaning_of_isScalar hs] at h
    obtain ⟨v, -, h⟩ := bind_eq_ok.mp h
    cases h
  · rw [nodeMeaning] at h
    obtain ⟨inner, hroom, h⟩ := bind_eq_ok.mp h
    rw [enter_eq_ok hroom]
    cases items with
    | nil => cases h
    | cons item items =>
      obtain ⟨k, hk, h⟩ := bind_eq_ok.mp h
      obtain ⟨values, hvalues, h⟩ := bind_eq_ok.mp h
      rw [itemsMeaning_eq_mapM] at hvalues
      obtain ⟨hdepths, hfits⟩ := mapM_eq_ok (fun item _ v hv => fits_of_meaning hv) hvalues
      have htag : item.2.depth ≤ inner := by
        rw [depth_of_isScalar (isScalar_of_tagMeaning hk)]
        exact Nat.zero_le inner
      exact ⟨Nat.succ_le_succ (itemsDepth_le_iff.mpr (List.forall_mem_cons.mpr ⟨htag, hdepths⟩)),
        fits_ofItems hfits h⟩
  · rw [nodeMeaning] at h
    obtain ⟨inner, hroom, h⟩ := bind_eq_ok.mp h
    obtain ⟨parts, hparts, h⟩ := bind_eq_ok.mp h
    obtain ⟨k, -, h⟩ := bind_eq_ok.mp h
    rw [enter_eq_ok hroom]
    have hstep : ∀ member ∈ members, ∀ name (parts parts' : NodeParts),
        (∀ member ∈ parts.members, member.2.Fits inner) → member.2.addMember inner parts name = .ok parts' →
          (∀ member ∈ parts'.members, member.2.Fits inner) ∧ member.2.depth ≤ inner :=
      fun member _ name parts parts' hparts hadd => fits_of_addMember hparts hadd
    obtain ⟨hfits, hdepths⟩ := foldMembers_eq_ok (f := fun parts name s => s.addMember inner parts name)
      (I := fun parts => ∀ member ∈ parts.members, member.2.Fits inner) (P := fun s => s.depth ≤ inner)
      hstep (by simp) hparts
    refine ⟨Nat.succ_le_succ (membersDepth_le_iff.mpr hdepths), fits_ofMembers ?_ h⟩
    intro member hmember
    exact hfits member (List.mem_reverse.mp hmember)

theorem fits_of_contentMeaning {room : Nat} {place : Place} {s : Spelling} {content : place.Content}
    (h : s.contentMeaning room place = .ok content) : place.Fits room content := by
  cases place with
  | node => exact (fits_of_nodeMeaning h).2
  | nodes =>
    have hnodes : s.nodesMeaning room = .ok content := h
    rcases s.scalar_or_brackets with hs | ⟨blanks, items, rfl⟩ | ⟨blanks, members, rfl⟩
    · rw [nodesMeaning_of_isScalar hs] at hnodes
      obtain ⟨v, -, hnodes⟩ := bind_eq_ok.mp hnodes
      cases hnodes
    · obtain ⟨inner, hroom, hitems⟩ := bind_eq_ok.mp hnodes
      have hfits := mapM_eq_ok (P := fun _ => True)
        (fun item _ node hnode => ⟨trivial, (fits_of_nodeMeaning hnode).2⟩) hitems
      exact ⟨inner, enter_eq_ok hroom, hfits.2⟩
    · cases hnodes
  | text => trivial
  | number =>
    obtain ⟨v, hv, hx⟩ := bind_eq_ok.mp h
    exact canonical_of_numberOfValue (fits_of_meaning hv).2.readable hx

theorem fits_of_addItems {room : Nat} {k : Kind} {count : Nat} {draft draft' : Draft} {names : List String}
    {items : List (Around × Spelling)} (hdraft : draft.Fits room)
    (h : addItems room k count draft names items = .ok draft') : draft'.Fits room ∧ draft'.kind = draft.kind := by
  induction names generalizing count draft items with
  | nil =>
    cases items with
    | nil =>
      cases h
      exact ⟨hdraft, rfl⟩
    | cons item items => cases h
  | cons name names ih =>
    cases items with
    | nil => cases h
    | cons item items =>
      rw [addItems] at h
      cases hslot : draft.slot name with
      | unknown =>
        rw [hslot] at h
        cases h
      | filled =>
        rw [hslot] at h
        cases h
      | vacant place fill =>
        rw [hslot] at h
        obtain ⟨content, hcontent, h⟩ := bind_eq_ok.mp h
        obtain ⟨hfits, hkind⟩ := ih (Draft.fits_fill hdraft hslot (fits_of_contentMeaning hcontent)) h
        exact ⟨hfits, hkind.trans (Draft.kind_fill hslot content)⟩

theorem fits_of_addField {room : Nat} {draft draft' : Draft} {name : String} {s : Spelling}
    (hdraft : draft.Fits room) (h : s.addField room draft name = .ok draft') :
    draft'.Fits room ∧ draft'.kind = draft.kind :=
  Draft.fits_fillWith hdraft (fun _ _ hcontent => fits_of_contentMeaning hcontent) h

/-- A record that a spelling means is of the given kind and fits the room it was read in. Members that are
skipped do not count. -/
theorem fits_of_recordMeaning {k : Kind} {room : Nat} {s : Spelling} {node : Node}
    (h : s.recordMeaning k room = .ok node) : node.Fits room ∧ node.kind = k := by
  have hfinish : ∀ {inner : Nat} {draft : Draft}, draft.Fits inner ∧ draft.kind = k → draft.finish = .ok node →
      node.Fits (inner + 1) ∧ node.kind = k := by
    rintro inner draft ⟨hfits, hkind⟩ hnode
    exact ⟨Draft.fits_finish hfits hnode, (Draft.kind_finish hnode).trans hkind⟩
  rcases s.scalar_or_brackets with hs | ⟨blanks, items, rfl⟩ | ⟨blanks, members, rfl⟩
  · rw [recordMeaning_of_isScalar hs] at h
    obtain ⟨v, -, h⟩ := bind_eq_ok.mp h
    cases h
  · rw [recordMeaning] at h
    obtain ⟨inner, hroom, h⟩ := bind_eq_ok.mp h
    obtain ⟨draft, hdraft, h⟩ := bind_eq_ok.mp h
    obtain ⟨hfits, hkind⟩ := fits_of_addItems (Draft.fits_blank inner k) hdraft
    rw [enter_eq_ok hroom]
    exact hfinish ⟨hfits, hkind.trans (Draft.kind_blank k)⟩ h
  · rw [recordMeaning] at h
    obtain ⟨inner, hroom, h⟩ := bind_eq_ok.mp h
    obtain ⟨draft, hdraft, h⟩ := bind_eq_ok.mp h
    have hstep : ∀ member ∈ members, ∀ name (draft draft' : Draft), draft.Fits inner ∧ draft.kind = k →
        member.2.addField inner draft name = .ok draft' → (draft'.Fits inner ∧ draft'.kind = k) ∧ True := by
      rintro member - name draft draft' ⟨hfits, hkind⟩ hadd
      obtain ⟨hfits', hkind'⟩ := fits_of_addField hfits hadd
      exact ⟨⟨hfits', hkind'.trans hkind⟩, trivial⟩
    have hfold := foldMembers_eq_ok (f := fun draft name s => s.addField inner draft name)
      (I := fun draft => draft.Fits inner ∧ draft.kind = k) (P := fun _ => True) hstep
      ⟨Draft.fits_blank inner k, Draft.kind_blank k⟩ hdraft
    rw [enter_eq_ok hroom]
    exact hfinish hfold.1 h

end Spelling

end Json

end SyntaxTree
