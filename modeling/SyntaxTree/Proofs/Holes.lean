import SyntaxTree.Proofs.Frames

/-!
A hole in a record, where any node may stand. Read straight from the text or made of kept values, the record makes
sense with one node in the hole only if it makes sense with every other, and has that node there; what stands
around the hole decides the rest.
-/

namespace SyntaxTree

open Json

/-! ### Holes -/

/-- A place for one node in a record: the only statement of a program, which has brackets around it, or the left
operand of an expression. -/
inductive Hole where
  | statement (blanks : Blanks) (around : Around)
  | left

namespace Hole

def kind : Hole → Kind
  | statement _ _ => .program
  | left => .binaryExpression

def name : Hole → String
  | statement _ _ => "body"
  | left => "left"

def place : Hole → Place
  | statement _ _ => .nodes
  | left => .node

/-- What the field holds when a node is in the hole. -/
def content : (hole : Hole) → Node → hole.place.Content
  | statement _ _, node => ([node] : List Node)
  | left, node => node

/-- How the field is spelled when a node in the hole is spelled so. -/
def spelling : Hole → Spelling → Spelling
  | statement blanks around, s => .array blanks [(around, s)]
  | left, s => s

/-- The value of the field when a node in the hole has this value. -/
def value : Hole → Value → Value
  | statement _ _, v => .array [v]
  | left, v => v

/-- The room that is left in the hole of an outermost record. -/
def room : Hole → Nat
  | statement _ _ => 125
  | left => 126

def node? : Hole → Node → Option Node
  | statement _ _, .program [node] => some node
  | left, .binary node _ _ => some node
  | _, _ => none

variable {hole : Hole}

theorem name_ne_tagName (hole : Hole) : hole.name ≠ Node.tagName := by
  cases hole <;> simp [name, Node.tagName]

theorem kind_of_node? {tree node : Node} (h : hole.node? tree = some node) : tree.kind = hole.kind := by
  unfold node? at h
  split at h
  · rfl
  · rfl
  · cases h

/-- The field of a hole is filled with one node, which is read where there is less room. -/
theorem contentMeaning_spelling (hole : Hole) (s : Spelling) :
    (hole.spelling s).contentMeaning 126 hole.place = (do .ok (hole.content (← s.nodeMeaning hole.room))) := by
  cases hole with
  | statement blanks around =>
    have hnodes : (Spelling.array blanks [(around, s)]).nodesMeaning 126 =
        (do .ok ([← s.nodeMeaning 125] : List Node)) := by
      rw [Spelling.nodesMeaning, enter, ok_bind, List.mapM_cons]
      rfl
    exact hnodes
  | left =>
    have hnode : s.nodeMeaning 126 = (do .ok (← s.nodeMeaning 126)) := by cases s.nodeMeaning 126 <;> rfl
    exact hnode

theorem meaning_spelling (hole : Hole) (s : Spelling) :
    (hole.spelling s).meaning 126 = (do .ok (hole.value (← s.meaning hole.room))) := by
  cases hole with
  | statement blanks around =>
    have hvalue : (Spelling.array blanks [(around, s)]).meaning 126 = (do .ok (.array [← s.meaning 125])) := by
      rw [Spelling.meaning, Spelling.itemsMeaning, bind_assoc]
      rfl
    exact hvalue
  | left =>
    have hvalue : s.meaning 126 = (do .ok (← s.meaning 126)) := by cases s.meaning 126 <;> rfl
    exact hvalue

theorem contentOfValue_value (hole : Hole) (v : Value) :
    contentOfValue hole.place (hole.value v) = (do .ok (hole.content (← Node.ofValue v))) := by
  cases hole with
  | statement blanks around =>
    have hnodes : contentOfValue .nodes (.array [v]) = (do .ok ([← contentOfValue .node v] : List Node)) := by
      have hvalues : contentOfValue .nodes (.array [v]) = nodesOfValues [v] := by rw [contentOfValue]
      rw [hvalues, nodesOfValues, nodesOfValues]
      rfl
    exact hnodes
  | left =>
    have hnode : contentOfValue .node v = (do .ok (← contentOfValue .node v)) := by
      cases contentOfValue .node v <;> rfl
    exact hnode

/-- In a record of its kind the hole is filled already or vacant, and then whatever two nodes are filled in, the
records differ in these nodes alone. -/
theorem slot_cases {draft : Draft} (hkind : draft.kind = hole.kind) :
    draft.slot hole.name = .filled ∨ ∃ fill, draft.slot hole.name = .vacant hole.place fill ∧
      ∀ node node', Draft.Differ node node' (fill (hole.content node)) (fill (hole.content node')) := by
  cases hole with
  | statement blanks around =>
    cases draft with
    | program body? =>
      cases body? with
      | none => exact .inr ⟨_, rfl, fun node node' => .body⟩
      | some body => exact .inl rfl
    | _ => cases hkind
  | left =>
    cases draft with
    | binary parts =>
      obtain ⟨left?, right?, operator?⟩ := parts
      cases left? with
      | none => exact .inr ⟨_, rfl, fun node node' => .left right? operator?⟩
      | some left => exact .inl rfl
    | _ => cases hkind

/-- If the hole can be filled with one node, it can be filled with any. -/
theorem fillWith_eq_ok {draft filled : Draft} (hkind : draft.kind = hole.kind)
    {read : (place : Place) → Except Fault place.Content} {reading : Except Fault Node}
    (hread : read hole.place = do .ok (hole.content (← reading)))
    (hfill : draft.fillWith hole.name read = .ok filled) :
    ∃ node, reading = .ok node ∧ ∀ (read' : (place : Place) → Except Fault place.Content) (node' : Node),
      read' hole.place = .ok (hole.content node') →
        ∃ filled', draft.fillWith hole.name read' = .ok filled' ∧ Draft.Differ node node' filled filled' := by
  unfold Draft.fillWith at hfill
  rcases slot_cases hkind with hslot | ⟨fill, hslot, hdiffer⟩
  · rw [hslot] at hfill
    cases hfill
  · rw [hslot] at hfill
    dsimp only at hfill
    rw [hread, bind_assoc] at hfill
    obtain ⟨node, hnode, hfill⟩ := bind_eq_ok.mp hfill
    cases hfill
    refine ⟨node, hnode, ?_⟩
    intro read' node' hread'
    refine ⟨fill (hole.content node'), ?_, hdiffer node node'⟩
    rw [Draft.fillWith, hslot]
    dsimp only
    rw [hread', ok_bind]

end Hole

/-- A finished record that differs in one node has the other node in its hole. -/
theorem Draft.Differ.finish {hole : Hole} {node node' tree : Node} {draft draft' : Draft}
    (h : Draft.Differ node node' draft draft') (hkind : tree.kind = hole.kind)
    (hfinish : draft.finish = .ok tree) :
    ∃ tree', draft'.finish = .ok tree' ∧ hole.node? tree' = some node' := by
  have hhole : draft.kind = hole.kind := (Draft.kind_finish hfinish).symm.trans hkind
  cases h with
  | body =>
    cases hole with
    | statement blanks around => exact ⟨_, rfl, rfl⟩
    | left => cases hhole
  | left right? operator? =>
    cases hole with
    | statement blanks around => cases hhole
    | left =>
      cases right? with
      | none => cases hfinish
      | some right =>
        cases operator? with
        | none => cases hfinish
        | some operator => exact ⟨_, rfl, rfl⟩

/-! ### Frames -/

/-- A record around a hole, as it is spelled: the members of an object, or the items of an array of which the
first `tags` are no fields. -/
inductive Frame (hole : Hole) (tags : Nat) where
  | members (blanks : Blanks) (before : List (Label × Spelling)) (label : Label)
    (named : label.name.meaning = .ok hole.name) (after : List (Label × Spelling))
  | items (blanks : Blanks) (front : List (Around × Spelling)) (hfront : front.length = tags) (around : Around)
    (after : List (Around × Spelling))

/-- The spelling of the record when a node in the hole is spelled so. -/
def Frame.fill {hole : Hole} {tags : Nat} : Frame hole tags → Spelling → Spelling
  | members blanks before label _ after, s => .object blanks (before ++ (label, hole.spelling s) :: after)
  | items blanks front _ around after, s => .array blanks (front ++ (around, hole.spelling s) :: after)

/-- Whatever makes sense with a node in the hole makes sense with any other there; `reading` tells which node
stands in the hole. -/
def Hole.Exchanges {α : Type} (hole : Hole) (loading reading : α → Except Fault Node) : Prop :=
  ∀ s tree, loading s = .ok tree → tree.kind = hole.kind → ∃ node, reading s = .ok node ∧
    ∀ s' node', reading s' = .ok node' → ∃ tree', loading s' = .ok tree' ∧ hole.node? tree' = some node'

theorem Hole.Exchanges.node?_eq {α : Type} {hole : Hole} {loading reading : α → Except Fault Node}
    (h : hole.Exchanges loading reading)
    (hopen : ∃ a node, (loading a).toOption.bind hole.node? = some node) (s : α) :
    (loading s).toOption.bind hole.node? = (reading s).toOption := by
  ext node
  rw [toOption_eq_some]
  constructor
  · intro hnode
    obtain ⟨tree, htree, hnode⟩ := Option.bind_eq_some_iff.mp hnode
    rw [toOption_eq_some] at htree
    obtain ⟨read, hread, hexchange⟩ := h s tree htree (kind_of_node? hnode)
    obtain ⟨tree', htree', hnode'⟩ := hexchange s read hread
    rw [htree] at htree'
    cases htree'
    rw [hnode] at hnode'
    cases hnode'
    exact hread
  · intro hread
    obtain ⟨s₀, node₀, hnode₀⟩ := hopen
    obtain ⟨tree₀, htree₀, hnode₀⟩ := Option.bind_eq_some_iff.mp hnode₀
    rw [toOption_eq_some] at htree₀
    obtain ⟨-, -, hexchange⟩ := h s₀ tree₀ htree₀ (kind_of_node? hnode₀)
    obtain ⟨tree, htree, hnode⟩ := hexchange s node hread
    rw [htree]
    exact hnode

/-- A record is read up to the field of the hole, the field is filled in, and what follows keeps to the relation
of records that differ in one node. -/
theorem Hole.exchanges_fillWith {α : Type} (hole : Hole) (draft : Draft)
    {read : α → (place : Place) → Except Fault place.Content} {reading : α → Except Fault Node}
    (hread : ∀ a, read a hole.place = do .ok (hole.content (← reading a)))
    {run : Draft → Except Fault Draft} (hrun : Draft.Respects run) :
    hole.Exchanges (fun a => do
      let filled ← draft.fillWith hole.name (read a)
      let last ← run filled
      last.finish) reading := by
  intro a tree hload hkind
  dsimp only at hload ⊢
  obtain ⟨filled, hfill, hload⟩ := bind_eq_ok.mp hload
  obtain ⟨last, hlast, hfinish⟩ := bind_eq_ok.mp hload
  have hdraft : draft.kind = hole.kind := by
    have hsame := Draft.simulation_kind draft.kind
    obtain ⟨-, -, -, hfilled⟩ := Draft.respects_fillWith hole.name (read a) hsame ⟨rfl, rfl⟩ hfill
    obtain ⟨-, -, -, hlast'⟩ := hrun hsame ⟨rfl, hfilled⟩ hlast
    rw [← hlast', ← Draft.kind_finish hfinish, hkind]
  obtain ⟨node, hnode, hexchange⟩ := fillWith_eq_ok hdraft (hread a) hfill
  refine ⟨node, hnode, ?_⟩
  intro a' node' hnode'
  have hread' : read a' hole.place = .ok (hole.content node') := by rw [hread, hnode', ok_bind]
  obtain ⟨filled', hfill', hdiffer⟩ := hexchange (read a') node' hread'
  obtain ⟨last', hlast', hdiffer'⟩ := hrun (Draft.simulation_differ node node') hdiffer hlast
  obtain ⟨tree', hfinish', hnode?⟩ := hdiffer'.finish hkind hfinish
  exact ⟨tree', by rw [hfill', ok_bind, hlast', ok_bind, hfinish'], hnode?⟩

/-- What comes first does not depend on the node in the hole. -/
theorem Hole.Exchanges.after {α β : Type} {hole : Hole} {loading : β → α → Except Fault Node}
    {reading : α → Except Fault Node} (o : Except Fault β) (h : ∀ b, hole.Exchanges (loading b) reading) :
    hole.Exchanges (fun a => do loading (← o) a) reading := by
  intro a tree hload hkind
  obtain ⟨b, hb, hload⟩ := bind_eq_ok.mp hload
  obtain ⟨node, hnode, hexchange⟩ := h b a tree hload hkind
  refine ⟨node, hnode, ?_⟩
  intro a' node' hnode'
  obtain ⟨tree', htree', hnode?⟩ := hexchange a' node' hnode'
  refine ⟨tree', ?_, hnode?⟩
  dsimp only
  rw [hb, ok_bind, htree']

/-! ### Records read straight from the text -/

/-- One member of a record is read after those in front of it and before the others. -/
theorem Json.Spelling.recordMeaning_member {label : Label} {name : String} (named : label.name.meaning = .ok name)
    (k : Kind) (room : Nat) (blanks : Blanks) (before after : List (Label × Spelling)) (s : Spelling) :
    (Spelling.object blanks (before ++ (label, s) :: after)).recordMeaning k (room + 1) = (do
      let draft ← foldMembers (Spelling.addField room) (.blank k) before
      let filled ← draft.fillWith name fun place => s.contentMeaning room place
      let last ← foldMembers (Spelling.addField room) filled after
      last.finish) := by
  rw [Spelling.recordMeaning, enter, ok_bind, foldMembers, List.foldlM_append, bind_assoc]
  apply bind_congr
  intro draft
  rw [List.foldlM_cons, named, bind_assoc]
  rfl

theorem Frame.exchanges_record_members {hole : Hole} (blanks : Blanks) (before after : List (Label × Spelling))
    {label : Label} (named : label.name.meaning = .ok hole.name) :
    hole.Exchanges
      (fun s => (Spelling.object blanks (before ++ (label, hole.spelling s) :: after)).recordMeaning hole.kind 127)
      (fun s => s.nodeMeaning hole.room) := by
  simp only [Spelling.recordMeaning_member named]
  apply Hole.Exchanges.after
  intro draft
  exact hole.exchanges_fillWith draft hole.contentMeaning_spelling (Draft.respects_foldMembers 126 after)

/-- The field of a hole is the first one of its record. -/
theorem Hole.fields_eq (hole : Hole) : ∃ names, hole.kind.fields = hole.name :: names := by
  cases hole with
  | statement blanks around => exact ⟨_, rfl⟩
  | left => exact ⟨_, rfl⟩

theorem Hole.slot_blank (hole : Hole) :
    ∃ fill, (Draft.blank hole.kind).slot hole.name = .vacant hole.place fill := by
  cases hole with
  | statement blanks around => exact ⟨_, rfl⟩
  | left => exact ⟨_, rfl⟩

theorem Frame.exchanges_record_items {hole : Hole} (blanks : Blanks) (around : Around)
    (after : List (Around × Spelling)) :
    hole.Exchanges
      (fun s => (Spelling.array blanks ((around, hole.spelling s) :: after)).recordMeaning hole.kind 127)
      (fun s => s.nodeMeaning hole.room) := by
  obtain ⟨names, hnames⟩ := hole.fields_eq
  obtain ⟨fill, hslot⟩ := hole.slot_blank
  have hload : ∀ s, (Spelling.array blanks ((around, hole.spelling s) :: after)).recordMeaning hole.kind 127 = (do
      let filled ←
        (Draft.blank hole.kind).fillWith hole.name fun place => (hole.spelling s).contentMeaning 126 place
      let last ← Spelling.addItems 126 hole.kind 1 filled names after
      last.finish) := by
    intro s
    rw [Spelling.recordMeaning, enter, ok_bind, hnames, Draft.addItems_cons hslot, bind_assoc]
  simp only [hload]
  exact hole.exchanges_fillWith (.blank hole.kind) hole.contentMeaning_spelling
    (Draft.respects_addItems 126 hole.kind 1 names after)

/-- In a record that is read straight from the text, the node in the hole is. -/
theorem Frame.exchanges_recordMeaning {hole : Hole} (frame : Frame hole 0) :
    hole.Exchanges (fun s => (frame.fill s).recordMeaning hole.kind 127) (fun s => s.nodeMeaning hole.room) := by
  cases frame with
  | members blanks before label named after => exact Frame.exchanges_record_members blanks before after named
  | items blanks front hfront around after =>
    obtain rfl : front = [] := List.length_eq_zero_iff.mp hfront
    exact Frame.exchanges_record_items blanks around after

/-! ### Nodes that are kept as values -/

/-- A member that is no tag does not matter when the tag is looked for. -/
theorem Json.tagOfMembers_other {name : String} (hname : name ≠ Node.tagName) (v : Value) (tag? : Option Kind)
    (members members' : List (String × Value)) :
    tagOfMembers tag? (members ++ (name, v) :: members') = tagOfMembers tag? (members ++ members') := by
  induction members generalizing tag? with
  | nil =>
    cases tag? with
    | none => rw [List.nil_append, List.nil_append, tagOfMembers, if_neg hname]
    | some k => rw [List.nil_append, List.nil_append, tagOfMembers, if_neg hname]
  | cons member members ih =>
    obtain ⟨name', v'⟩ := member
    rw [List.cons_append, List.cons_append, tagOfMembers, tagOfMembers]
    simp only [ih]

/-- One field of a node is made sense of after the members in front of it and before the others. -/
theorem Node.ofValue_member {name : String} (hname : name ≠ Node.tagName) (members members' : List (String × Value))
    (v : Value) : Node.ofValue (.object (members ++ (name, v) :: members')) = (do
      let k ← tagOfMembers none (members ++ members')
      let draft ← fillMembers (.blank k) members
      let filled ← draft.fillWith name fun place => contentOfValue place v
      let last ← fillMembers filled members'
      last.finish) := by
  rw [Node.ofValue_object, tagOfMembers_other hname]
  apply bind_congr
  intro k
  rw [Node.ofMembers, Draft.fillMembers_eq_foldlM, List.foldlM_append, bind_assoc]
  simp only [List.foldlM_cons, bind_assoc, Draft.fillMembers_eq_foldlM]

theorem Hole.exchanges_object (hole : Hole) (members members' : List (String × Value)) :
    hole.Exchanges (fun v => Node.ofValue (.object (members ++ (hole.name, hole.value v) :: members')))
      Node.ofValue := by
  simp only [Node.ofValue_member hole.name_ne_tagName]
  apply Hole.Exchanges.after
  intro k
  apply Hole.Exchanges.after
  intro draft
  exact hole.exchanges_fillWith draft hole.contentOfValue_value (Draft.respects_fillMembers members')

theorem Hole.exchanges_array (hole : Hole) (tag : Value) (items : List Value) :
    hole.Exchanges (fun v => Node.ofValue (.array (tag :: hole.value v :: items))) Node.ofValue := by
  obtain ⟨names, hnames⟩ := hole.fields_eq
  simp only [Node.ofValue_array_cons]
  apply Hole.Exchanges.after
  intro k
  by_cases hk : k = hole.kind
  · subst hk
    have hload : ∀ v, Node.ofItems hole.kind (hole.value v :: items) = (do
        let filled ← (Draft.blank hole.kind).fillWith hole.name fun place => contentOfValue place (hole.value v)
        let last ← fillItems hole.kind (items.length + 1) filled names items
        last.finish) := by
      intro v
      rw [Node.ofItems, hnames, Draft.fillItems_cons, bind_assoc]
      rfl
    simp only [hload]
    exact hole.exchanges_fillWith (.blank hole.kind) hole.contentOfValue_value
      (Draft.respects_fillItems hole.kind (items.length + 1) names items)
  · intro v tree hload hkind
    exact absurd ((Node.kind_ofItems hload).symm.trans hkind) hk

/-- If the value of a record makes sense with a node in the hole, its spelling does. -/
theorem Hole.Exchanges.keptMeaning {hole : Hole} {fill : Spelling → Spelling} {valueOf : Value → Value}
    (h : hole.Exchanges (fun v => Node.ofValue (valueOf v)) Node.ofValue)
    (hfill : ∀ s, (fill s).meaning 127 = (do .ok (valueOf (← s.meaning hole.room)))) :
    hole.Exchanges (fun s => (fill s).keptMeaning 127) (fun s => s.keptMeaning hole.room) := by
  intro s tree hload hkind
  dsimp only at hload ⊢
  rw [Spelling.keptMeaning, hfill, bind_assoc] at hload
  obtain ⟨v, hv, hload⟩ := bind_eq_ok.mp hload
  obtain ⟨node, hnode, hexchange⟩ := h v tree hload hkind
  refine ⟨node, by rw [Spelling.keptMeaning, hv, ok_bind, hnode], ?_⟩
  intro s' node' hnode'
  obtain ⟨v', hv', hnode'⟩ := bind_eq_ok.mp hnode'
  obtain ⟨tree', htree', hnode?⟩ := hexchange v' node' hnode'
  refine ⟨tree', ?_, hnode?⟩
  rw [Spelling.keptMeaning, hfill, hv', ok_bind, ok_bind]
  exact htree'

/-- In a record that is kept, the node in the hole is made of its value. -/
theorem Frame.exchanges_keptMeaning {hole : Hole} {tree₀ : Node} {s₀ : Spelling} (frame : Frame hole 1)
    (h : (frame.fill s₀).keptMeaning 127 = .ok tree₀) :
    hole.Exchanges (fun s => (frame.fill s).keptMeaning 127) (fun s => s.keptMeaning hole.room) := by
  obtain ⟨v₀, hv₀, -⟩ := bind_eq_ok.mp h
  cases frame with
  | members blanks before label named after =>
    rw [Frame.fill, Spelling.meaning, Spelling.membersMeaning_append] at hv₀
    obtain ⟨values, hvalues, -⟩ := bind_eq_ok.mp hv₀
    obtain ⟨before', hbefore, hvalues⟩ := bind_eq_ok.mp hvalues
    obtain ⟨rest, hrest, -⟩ := bind_eq_ok.mp hvalues
    obtain ⟨name, -, v, -, after', hafter, -⟩ := (Spelling.membersMeaning_cons _ _ _ _ _).mp hrest
    apply (hole.exchanges_object before' after').keptMeaning
    intro s
    rw [Frame.fill, Spelling.meaning, Spelling.membersMeaning_append, hbefore, ok_bind, Spelling.membersMeaning,
      named, ok_bind, hole.meaning_spelling, hafter]
    cases s.meaning hole.room <;> rfl
  | items blanks front hfront around after =>
    obtain ⟨tag, rfl⟩ := List.length_eq_one_iff.mp hfront
    rw [Frame.fill, Spelling.meaning, List.singleton_append, Spelling.itemsMeaning, Spelling.itemsMeaning] at hv₀
    obtain ⟨values, hvalues, -⟩ := bind_eq_ok.mp hv₀
    obtain ⟨tagValue, htag, hvalues⟩ := bind_eq_ok.mp hvalues
    obtain ⟨rest, hrest, -⟩ := bind_eq_ok.mp hvalues
    obtain ⟨v, -, hrest⟩ := bind_eq_ok.mp hrest
    obtain ⟨after', hafter, -⟩ := bind_eq_ok.mp hrest
    apply (hole.exchanges_array tagValue after').keptMeaning
    intro s
    rw [Frame.fill, Spelling.meaning, List.singleton_append, Spelling.itemsMeaning, Spelling.itemsMeaning, htag,
      ok_bind, hole.meaning_spelling, hafter]
    cases s.meaning hole.room <;> rfl

/-- The tag of a node is not in the hole. -/
theorem Frame.hasNumberTag_fill {hole : Hole} (frame : Frame hole 1) (s s' : Spelling) :
    (frame.fill s).hasNumberTag = (frame.fill s').hasNumberTag := by
  cases frame with
  | members blanks before label named after =>
    have hother : ∀ s : Spelling, Spelling.isNumberTag (label, s) = false := by
      intro s
      simp [Spelling.isNumberTag, named, hole.name_ne_tagName]
    simp only [Frame.fill, Spelling.hasNumberTag, List.any_append, List.any_cons, hother]
  | items blanks front hfront around after =>
    obtain ⟨tag, rfl⟩ := List.length_eq_one_iff.mp hfront
    rfl

end SyntaxTree
