import SyntaxTree.Proofs.Identical
import SyntaxTree.Proofs.PositionalText

/-!
What a walk shows of a tree. The texts of a tree are not escaped, so one canonical text may belong to many trees; but
a walk that shows depth, kind and text of every node belongs to one tree only. The depths show where the nodes below
a node end, so the tree is found from its leaves up: leaves by their text, an operator by taking the texts of the
two operands out of the text around them.
-/

namespace SyntaxTree

namespace Node

theorem canonicalAll_eq_map (nodes : List Node) : canonicalAll nodes = nodes.map canonical := by
  induction nodes with
  | nil => rfl
  | cons node nodes ih => rw [canonicalAll, ih, List.map_cons]

theorem kind_canonical (node : Node) : node.canonical.kind = node.kind := by cases node <;> rfl

theorem children_canonical (node : Node) : node.canonical.children = node.children.map canonical := by
  cases node with
  | program body => rw [canonical, children, children, canonicalAll_eq_map]
  | _ => rfl

/-! ### The nodes of a tree -/

/-- Two traversals pass through the same nodes. What the one knows there follows from what the other knows, if it does
at the start and from a node to those below it. -/
theorem map_traverse {α β : Type} {below : α → Node → α} {below' : β → Node → β} {f : α → β}
    (h : ∀ known node, f (below known node) = below' (f known) node) (start : α) (node : Node) :
    (node.traverse below start).map (fun (known, node) => (f known, node)) = node.traverse below' (f start) := by
  induction node using childInduction generalizing start with
  | h node ih =>
    rw [traverse_eq, traverse_eq, List.map_cons, List.map_flatMap,
      List.flatMap_congr fun child hchild => ih child hchild (below start node), h]

/-- The nodes of a tree in the order of a walk. -/
def nodes (node : Node) : List Node := node.walk.map Prod.snd

theorem map_snd_walkFrom (depth : Nat) (node : Node) : (node.walkFrom depth).map Prod.snd = node.nodes := by
  have hshift : node.walk.map (fun (start, node) => (start + depth, node)) = node.walkFrom (0 + depth) :=
    map_traverse (f := (· + depth)) (fun start _ => Nat.succ_add start depth) 0 node
  rw [← Nat.zero_add depth, ← hshift, List.map_map]
  rfl

theorem nodes_eq (node : Node) : node.nodes = node :: node.children.flatMap nodes := by
  rw [nodes, walk, walkFrom_eq, List.map_cons, List.map_flatMap,
    List.flatMap_congr fun child _ => map_snd_walkFrom (0 + 1) child]

def countOf (k : Kind) (node : Node) : Nat := (node.nodes.map kind).count k

theorem countOf_eq (k : Kind) (node : Node) :
    node.countOf k = (if node.kind = k then 1 else 0) + (node.children.map (countOf k)).sum := by
  have hchildren : ∀ children : List Node,
      ((children.flatMap nodes).map kind).count k = (children.map (countOf k)).sum := by
    intro children
    induction children with
    | nil => rfl
    | cons child children ih =>
      rw [List.flatMap_cons, List.map_append, List.count_append, ih, List.map_cons, List.sum_cons, countOf]
  rw [countOf, nodes_eq, List.map_cons, List.count_cons, hchildren, Nat.add_comm]
  simp only [beq_iff_eq]

theorem countOf_of_isLeaf {node : Node} (h : node.kind.isLeaf = true) (k : Kind) :
    node.countOf k = if node.kind = k then 1 else 0 := by
  rw [countOf_eq, children_of_isLeaf h, List.map_nil, List.sum_nil, Nat.add_zero]

/-! ### One node -/

/-- The text that a node holds itself: its symbol, its value or its operator. -/
def ownText : Node → List Char
  | identifier symbol => symbol.toList
  | binary _ operator _ => operator.toList
  | string value => value.toList
  | _ => []

/-- The operator stands between the texts of the operands. -/
theorem operator_eq_of_text {left left' right right' : Node} {operator operator' : String}
    (hleft : left.textChars = left'.textChars) (hright : right.textChars = right'.textChars)
    (h : (binary left operator right).textChars = (binary left' operator' right').textChars) :
    operator = operator' := by
  rw [textChars_binary, textChars_binary, hleft, hright] at h
  obtain ⟨-, hparts⟩ := List.cons.inj h
  obtain ⟨-, hparts⟩ := List.cons.inj (List.append_cancel_left hparts)
  exact String.toList_injective (List.append_cancel_right hparts)

theorem textChars_eq_of_canonical {a b : Node} (h : a.canonical = b.canonical) : a.textChars = b.textChars := by
  rw [← textChars_canonical a, ← textChars_canonical b, h]

/-- A node is known from its kind, its text and its children. -/
theorem canonical_eq_of_children {a b : Node} (hkind : a.kind = b.kind) (htext : a.text = b.text)
    (hchildren : a.children.map canonical = b.children.map canonical) : a.canonical = b.canonical := by
  have hchars : a.textChars = b.textChars := String.ofList_injective htext
  cases a with
  | program body =>
    cases b with
    | program body' =>
      have hbody : body.map canonical = body'.map canonical := hchildren
      rw [canonical, canonical, canonicalAll_eq_map, canonicalAll_eq_map, hbody]
    | _ => cases hkind
  | number x =>
    cases b with
    | number y =>
      rw [textChars_number, textChars_number] at hchars
      exact congrArg number (Double.canonical_eq_of_textChars hchars)
    | _ => cases hkind
  | null =>
    cases b with
    | null => rfl
    | _ => cases hkind
  | identifier symbol =>
    cases b with
    | identifier symbol' =>
      rw [textChars_identifier, textChars_identifier] at hchars
      exact congrArg identifier (String.toList_injective hchars)
    | _ => cases hkind
  | binary left operator right =>
    cases b with
    | binary left' operator' right' =>
      obtain ⟨hleft, hright⟩ : left.canonical = left'.canonical ∧ right.canonical = right'.canonical := by
        simpa [children] using hchildren
      have hoperator := operator_eq_of_text (textChars_eq_of_canonical hleft) (textChars_eq_of_canonical hright) hchars
      rw [canonical, canonical, hleft, hoperator, hright]
    | _ => cases hkind
  | string value =>
    cases b with
    | string value' =>
      rw [textChars_string, textChars_string] at hchars
      obtain ⟨-, hvalue⟩ := List.cons.inj hchars
      exact congrArg string (String.toList_injective (List.append_cancel_right hvalue))
    | _ => cases hkind

/-! ### Walks -/

/-- What a walk shows of a node. -/
structure Visit where
  depth : Nat
  kind : Kind
  text : String
deriving DecidableEq

/-- What a walk shows that starts at a depth. -/
def visitsFrom (depth : Nat) (node : Node) : List Visit :=
  (node.walkFrom depth).map fun (depth, node) => ⟨depth, node.kind, node.text⟩

/-- What a walk from the root shows. -/
def visits (node : Node) : List Visit := node.walk.map fun (depth, node) => ⟨depth, node.kind, node.text⟩

theorem visitsFrom_eq (depth : Nat) (node : Node) :
    node.visitsFrom depth = ⟨depth, node.kind, node.text⟩ :: node.children.flatMap (visitsFrom (depth + 1)) := by
  rw [visitsFrom, walkFrom_eq, List.map_cons, List.map_flatMap]
  rfl

/-- What comes first, if anything, is no deeper than `depth`. -/
def StartsAbove (depth : Nat) (visits : List Visit) : Prop := ∀ visit ∈ visits.head?, visit.depth ≤ depth

theorem startsAbove_nil (depth : Nat) : StartsAbove depth [] := by simp [StartsAbove]

theorem StartsAbove.visitsFrom_append {depth : Nat} {rest : List Visit} (h : StartsAbove depth rest)
    (nodes : List Node) : StartsAbove (depth + 1) (nodes.flatMap (visitsFrom (depth + 1)) ++ rest) := by
  cases nodes with
  | nil => exact fun visit hvisit => Nat.le_succ_of_le (h visit hvisit)
  | cons node nodes => simp [StartsAbove, visitsFrom_eq]

/-- Two trees on the same level whose walks begin a list of visits are identical, and the walks end at one place. -/
def ShowsItself (node : Node) : Prop :=
  ∀ {other : Node} {depth : Nat} {rest rest' : List Visit}, StartsAbove depth rest → StartsAbove depth rest' →
    node.visitsFrom depth ++ rest = other.visitsFrom depth ++ rest' → node.canonical = other.canonical ∧ rest = rest'

/-- The nodes below a node end where a visit is no deeper than that node. -/
theorem children_of_visits {nodes nodes' : List Node} (hshows : ∀ node ∈ nodes, node.ShowsItself) {depth : Nat}
    {rest rest' : List Visit} (hrest : StartsAbove depth rest) (hrest' : StartsAbove depth rest')
    (h : nodes.flatMap (visitsFrom (depth + 1)) ++ rest = nodes'.flatMap (visitsFrom (depth + 1)) ++ rest') :
    nodes.map canonical = nodes'.map canonical ∧ rest = rest' := by
  -- a visit one level below does not follow where the nodes have ended
  have hdeeper : ∀ {rest : List Visit} (node : Node) (visits : List Visit), StartsAbove depth rest →
      rest ≠ node.visitsFrom (depth + 1) ++ visits := by
    rintro rest node visits hrest rfl
    simp [StartsAbove, visitsFrom_eq] at hrest
  induction nodes generalizing nodes' with
  | nil =>
    cases nodes' with
    | nil => exact ⟨rfl, h⟩
    | cons node' nodes' =>
      rw [List.flatMap_cons, List.append_assoc] at h
      exact absurd h (hdeeper node' _ hrest)
  | cons node nodes ih =>
    cases nodes' with
    | nil =>
      rw [List.flatMap_cons, List.append_assoc] at h
      exact absurd h.symm (hdeeper node _ hrest')
    | cons node' nodes' =>
      rw [List.flatMap_cons, List.flatMap_cons, List.append_assoc, List.append_assoc] at h
      obtain ⟨hnode, htail⟩ :=
        hshows node List.mem_cons_self (hrest.visitsFrom_append nodes) (hrest'.visitsFrom_append nodes') h
      obtain ⟨hnodes, hsame⟩ := ih (fun node hnode => hshows node (List.mem_cons_of_mem _ hnode)) htail
      exact ⟨by rw [List.map_cons, List.map_cons, hnode, hnodes], hsame⟩

theorem showsItself (node : Node) : node.ShowsItself := by
  induction node using childInduction with
  | h node ih =>
    intro other depth rest rest' hrest hrest' hvisits
    rw [visitsFrom_eq, visitsFrom_eq, List.cons_append, List.cons_append] at hvisits
    obtain ⟨hvisit, hbelow⟩ := List.cons.inj hvisits
    obtain ⟨-, hkind, htext⟩ := Visit.mk.inj hvisit
    obtain ⟨hchildren, hsame⟩ := children_of_visits ih hrest hrest' hbelow
    exact ⟨canonical_eq_of_children hkind htext hchildren, hsame⟩

/-- A walk shows the same of a tree as of its canonical tree. -/
theorem visitsFrom_canonical (node : Node) (depth : Nat) : node.canonical.visitsFrom depth = node.visitsFrom depth := by
  induction node using childInduction generalizing depth with
  | h node ih =>
    rw [visitsFrom_eq, visitsFrom_eq, kind_canonical, text_canonical, children_canonical, List.flatMap_map,
      List.flatMap_congr fun child hchild => ih child hchild (depth + 1)]

/-- Walks show the same of two trees exactly if the trees are identical. -/
theorem visits_eq_iff (a b : Node) : a.visits = b.visits ↔ a.identical b = true := by
  rw [identical_iff]
  constructor
  · intro h
    have hvisits : a.visitsFrom 0 ++ [] = b.visitsFrom 0 ++ [] := congrArg (· ++ []) h
    exact (a.showsItself (startsAbove_nil 0) (startsAbove_nil 0) hvisits).1
  · intro h
    have hvisits : a.visitsFrom 0 = b.visitsFrom 0 := by
      rw [← visitsFrom_canonical a, ← visitsFrom_canonical b, h]
    exact hvisits

/-- A text alone may belong to two trees. -/
example : (identifier "(a + b)").text = (binary (.identifier "a") "+" (.identifier "b")).text ∧
    (identifier "(a + b)").visits ≠ (binary (.identifier "a") "+" (.identifier "b")).visits := by
  decide +kernel

end Node

end SyntaxTree
