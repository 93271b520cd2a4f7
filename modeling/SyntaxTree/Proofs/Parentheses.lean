import Mathlib.Order.Bounds.Defs
import SyntaxTree.Proofs.ObjectOrder
import SyntaxTree.Proofs.Walk

/-!
The parentheses of a canonical text. Where the texts in a tree hold none, each binary expression writes one pair around
its own text and nothing else writes any. So the parentheses match, there is one pair for each expression, and as many
are open at once as there are expressions on one path from the root; programs add nothing wherever they stand.
-/

namespace SyntaxTree

/-! ### Parentheses in characters -/

/-- The parentheses among characters match: there are as many of each, those closed never outnumber those opened
before them, and the largest number open at once is `height`. -/
structure Nests (cs : List Char) (pairs height : Nat) : Prop where
  opened : cs.count '(' = pairs
  closed : cs.count ')' = pairs
  within : ∀ beginning, beginning <+: cs →
    beginning.count ')' ≤ beginning.count '(' ∧ beginning.count '(' ≤ beginning.count ')' + height
  reached : ∃ beginning, beginning <+: cs ∧ beginning.count '(' = beginning.count ')' + height

/-- A beginning of two texts ends in the first one or in the second one. -/
theorem beginning_append {cs ds beginning : List Char} (h : beginning <+: cs ++ ds) :
    beginning <+: cs ∨ ∃ more, more <+: ds ∧ beginning = cs ++ more := by
  rcases List.prefix_or_prefix_of_prefix h (List.prefix_append cs ds) with hfirst | ⟨more, rfl⟩
  · exact .inl hfirst
  · exact .inr ⟨more, (List.prefix_append_right_inj cs).mp h, rfl⟩

namespace Nests

variable {cs ds : List Char} {pairs pairs' height height' : Nat}

theorem of_not_mem (hopen : '(' ∉ cs) (hclose : ')' ∉ cs) : Nests cs 0 0 where
  opened := List.count_eq_zero.mpr hopen
  closed := List.count_eq_zero.mpr hclose
  within := by
    intro beginning h
    rw [List.count_eq_zero.mpr fun hmem => hopen (h.subset hmem)]
    exact ⟨Nat.le_of_eq (List.count_eq_zero.mpr fun hmem => hclose (h.subset hmem)), Nat.zero_le _⟩
  reached := ⟨[], List.nil_prefix, rfl⟩

/-- One after the other, the second text starts with nothing open. -/
theorem append (h : Nests cs pairs height) (h' : Nests ds pairs' height') :
    Nests (cs ++ ds) (pairs + pairs') (max height height') where
  opened := by rw [List.count_append, h.opened, h'.opened]
  closed := by rw [List.count_append, h.closed, h'.closed]
  within := by
    intro beginning hbeginning
    rcases beginning_append hbeginning with hfirst | ⟨more, hmore, rfl⟩
    · have hwithin := h.within beginning hfirst
      omega
    · have hwithin := h'.within more hmore
      rw [List.count_append, List.count_append, h.opened, h.closed]
      omega
  reached := by
    rcases Nat.le_total height' height with hle | hle
    · obtain ⟨beginning, hbeginning, hreached⟩ := h.reached
      rw [Nat.max_eq_left hle]
      exact ⟨beginning, List.prefix_append_of_prefix hbeginning, hreached⟩
    · obtain ⟨more, hmore, hreached⟩ := h'.reached
      rw [Nat.max_eq_right hle]
      refine ⟨cs ++ more, (List.prefix_append_right_inj cs).mpr hmore, ?_⟩
      rw [List.count_append, List.count_append, h.opened, h.closed, hreached, Nat.add_assoc]

/-- A pair of parentheses around a text is open as long as the text is. -/
theorem parenthesized (h : Nests cs pairs height) : Nests ('(' :: (cs ++ [')'])) (pairs + 1) (height + 1) where
  opened := by simp [h.opened]
  closed := by simp [h.closed]
  within := by
    intro beginning hbeginning
    rcases List.prefix_cons_iff.mp hbeginning with rfl | ⟨inner, rfl, hinner⟩
    · simp
    · rcases List.prefix_concat_iff.mp hinner with rfl | hinner
      · simp [h.opened, h.closed]
      · have hwithin := h.within inner hinner
        rw [List.count_cons_self, List.count_cons_of_ne (by decide)]
        omega
  reached := by
    obtain ⟨inner, hinner, hreached⟩ := h.reached
    refine ⟨'(' :: inner, List.cons_prefix_cons.mpr ⟨rfl, List.prefix_append_of_prefix hinner⟩, ?_⟩
    simp [hreached, Nat.add_assoc]

end Nests

namespace Double

theorem nests_textChars (x : Double) : Nests x.textChars 0 0 := by
  have hnot : ∀ c ∈ x.textChars, c ≠ '(' ∧ c ≠ ')' := by
    intro c hc
    cases hfinite : x.isFinite with
    | true =>
      rcases mem_textChars hfinite hc with hdigit | rfl | rfl
      · exact ⟨Json.ne_of_isDigit hdigit (by decide), Json.ne_of_isDigit hdigit (by decide)⟩
      · decide
      · decide
    | false =>
      revert c
      rcases textChars_of_not_isFinite hfinite with h | h | h <;>
      · rw [h]
        simp
  exact .of_not_mem (fun hmem => (hnot _ hmem).1 rfl) (fun hmem => (hnot _ hmem).2 rfl)

end Double

namespace Node

/-! ### Expressions on a path -/

/-- The paths from the nodes of a tree up to its root, as the kinds of the nodes on them. -/
def paths (node : Node) : List (List Kind) := (node.walkUnder []).map fun (above, node) => node.kind :: above

theorem walkUnder_append (node : Node) (above further : List Kind) :
    node.walkUnder (above ++ further) = (node.walkUnder above).map fun (above, node) => (above ++ further, node) :=
  (map_traverse (f := (· ++ further)) (fun _ _ => rfl) above node).symm

/-- A path ends at the root at once, or it goes up to a child of the root first. -/
theorem paths_eq (node : Node) :
    node.paths = [node.kind] :: node.children.flatMap fun child => child.paths.map (· ++ [node.kind]) := by
  have hchild : ∀ child : Node, (child.walkUnder [node.kind]).map (fun (above, node) => node.kind :: above) =
      child.paths.map (· ++ [node.kind]) := by
    intro child
    rw [← List.nil_append [node.kind], walkUnder_append, paths, List.map_map, List.map_map]
    rfl
  rw [paths, walkUnder_eq, List.map_cons, List.map_flatMap, List.flatMap_congr fun child _ => hchild child]

mutual

/-- How many binary expressions stand inside each other in a tree. -/
def nesting : Node → Nat
  | program body => bodyNesting body
  | binary left _ right => max left.nesting right.nesting + 1
  | _ => 0

def bodyNesting : List Node → Nat
  | [] => 0
  | node :: nodes => max node.nesting (bodyNesting nodes)

end

theorem nesting_eq (node : Node) :
    node.nesting = (if node.kind = .binaryExpression then 1 else 0) + bodyNesting node.children := by
  cases node with
  | binary left operator right =>
    rw [nesting, children, bodyNesting, bodyNesting, bodyNesting, Nat.max_zero, kind, if_pos rfl, Nat.add_comm]
  | program body => exact (Nat.zero_add _).symm
  | _ => rfl

theorem nesting_le_bodyNesting {nodes : List Node} {node : Node} (h : node ∈ nodes) :
    node.nesting ≤ bodyNesting nodes := by
  induction nodes with
  | nil => cases h
  | cons first nodes ih =>
    rw [bodyNesting]
    rcases List.mem_cons.mp h with rfl | h
    · exact Nat.le_max_left _ _
    · exact Nat.le_trans (ih h) (Nat.le_max_right _ _)

theorem bodyNesting_cases (nodes : List Node) :
    bodyNesting nodes = 0 ∨ ∃ node ∈ nodes, node.nesting = bodyNesting nodes := by
  induction nodes with
  | nil => exact .inl rfl
  | cons first nodes ih =>
    rw [bodyNesting]
    rcases Nat.le_total (bodyNesting nodes) first.nesting with hle | hle
    · exact .inr ⟨first, List.mem_cons_self, (Nat.max_eq_left hle).symm⟩
    · rw [Nat.max_eq_right hle]
      rcases ih with hzero | ⟨node, hnode, hnesting⟩
      · exact .inl hzero
      · exact .inr ⟨node, List.mem_cons_of_mem _ hnode, hnesting⟩

/-- The nesting of a tree is the largest number of binary expressions on one of its paths. -/
theorem isGreatest_nesting (node : Node) :
    IsGreatest {n | ∃ path ∈ node.paths, path.count .binaryExpression = n} node.nesting := by
  induction node using childInduction with
  | h node ih =>
    have hroot : [node.kind].count .binaryExpression = if node.kind = .binaryExpression then 1 else 0 := by
      simp [List.count_cons]
    rw [nesting_eq, paths_eq]
    constructor
    · rcases bodyNesting_cases node.children with hzero | ⟨child, hchild, hnesting⟩
      · exact ⟨[node.kind], List.mem_cons_self, by rw [hroot, hzero, Nat.add_zero]⟩
      · obtain ⟨path, hpath, hcount⟩ := (ih child hchild).1
        refine ⟨path ++ [node.kind], ?_, ?_⟩
        · exact List.mem_cons_of_mem _ (List.mem_flatMap.mpr ⟨child, hchild, List.mem_map_of_mem hpath⟩)
        · rw [List.count_append, hcount, hroot, hnesting, Nat.add_comm]
    · rintro n ⟨path, hpath, rfl⟩
      rcases List.mem_cons.mp hpath with rfl | hpath
      · exact hroot.trans_le (Nat.le_add_right _ _)
      · obtain ⟨child, hchild, hpath⟩ := List.mem_flatMap.mp hpath
        obtain ⟨inner, hinner, rfl⟩ := List.mem_map.mp hpath
        have hle := Nat.le_trans ((ih child hchild).2 ⟨inner, hinner, rfl⟩) (nesting_le_bodyNesting hchild)
        rw [List.count_append, hroot]
        omega

/-! ### Parentheses in a text -/

/-- No node of a tree holds a parenthesis in its symbol, value or operator. -/
def WithoutParentheses (node : Node) : Prop := ∀ inner ∈ node.nodes, '(' ∉ inner.ownText ∧ ')' ∉ inner.ownText

instance (node : Node) : Decidable node.WithoutParentheses :=
  inferInstanceAs (Decidable (∀ inner ∈ node.nodes, '(' ∉ inner.ownText ∧ ')' ∉ inner.ownText))

theorem withoutParentheses_iff (node : Node) : node.WithoutParentheses ↔
    ('(' ∉ node.ownText ∧ ')' ∉ node.ownText) ∧ ∀ child ∈ node.children, child.WithoutParentheses := by
  unfold WithoutParentheses
  rw [nodes_eq, List.forall_mem_cons]
  simp only [List.mem_flatMap]
  grind

theorem nests_flatMap {nodes : List Node}
    (h : ∀ node ∈ nodes, Nests node.textChars (node.countOf .binaryExpression) node.nesting) :
    Nests (nodes.flatMap textChars) (nodes.map (countOf .binaryExpression)).sum (bodyNesting nodes) := by
  induction nodes with
  | nil => exact .of_not_mem List.not_mem_nil List.not_mem_nil
  | cons node nodes ih =>
    exact (h node List.mem_cons_self).append (ih fun node hnode => h node (List.mem_cons_of_mem _ hnode))

/-- Each expression writes one pair of parentheses around the texts of its operands. -/
theorem nests_textChars {node : Node} (h : node.WithoutParentheses) :
    Nests node.textChars (node.countOf .binaryExpression) node.nesting := by
  induction node using induction with
  | program body ih =>
    have hchildren := ((withoutParentheses_iff _).mp h).2
    rw [textChars_program, countOf_eq, nesting, kind, if_neg (by decide), Nat.zero_add]
    exact nests_flatMap fun node hnode => ih node hnode (hchildren node hnode)
  | number x =>
    rw [textChars_number, countOf_of_isLeaf rfl]
    exact x.nests_textChars
  | null =>
    rw [countOf_of_isLeaf rfl]
    exact .of_not_mem (by decide) (by decide)
  | identifier symbol =>
    obtain ⟨hopen, hclose⟩ := ((withoutParentheses_iff _).mp h).1
    rw [textChars_identifier, countOf_of_isLeaf rfl]
    exact .of_not_mem hopen hclose
  | binary left operator right ihLeft ihRight =>
    obtain ⟨⟨hopen, hclose⟩, hchildren⟩ := (withoutParentheses_iff _).mp h
    have hleft := ihLeft (hchildren left (by simp [children]))
    have hright := ihRight (hchildren right (by simp [children]))
    have hspace : Nests [' '] 0 0 := .of_not_mem (by decide) (by decide)
    have hoperator : Nests operator.toList 0 0 := .of_not_mem hopen hclose
    have hparts := (hleft.append (hspace.append (hoperator.append (hspace.append hright)))).parenthesized
    rw [textChars_binary, countOf_eq, nesting]
    simpa [children, kind, Nat.add_comm, Nat.add_left_comm] using hparts
  | string value =>
    obtain ⟨hopen, hclose⟩ := ((withoutParentheses_iff _).mp h).1
    have hquote : Nests ['"'] 0 0 := .of_not_mem (by decide) (by decide)
    rw [textChars_string, countOf_of_isLeaf rfl]
    exact hquote.append ((Nests.of_not_mem hopen hclose).append hquote)

/-- The parentheses in the text of a tree without others match. There is one pair for each binary expression, and the
largest number open at once is the largest number of binary expressions on a path from the root. -/
theorem parentheses_of_text {node : Node} (h : node.WithoutParentheses) :
    (∀ beginning, beginning <+: node.text.toList → beginning.count ')' ≤ beginning.count '(') ∧
    node.text.toList.count '(' = node.countOf .binaryExpression ∧
    node.text.toList.count ')' = node.countOf .binaryExpression ∧
    IsGreatest {n | ∃ beginning, beginning <+: node.text.toList ∧ beginning.count '(' = beginning.count ')' + n}
      node.nesting ∧
    IsGreatest {n | ∃ path ∈ node.paths, path.count .binaryExpression = n} node.nesting := by
  have hnests := nests_textChars h
  rw [text, String.toList_ofList]
  refine ⟨fun beginning hbeginning => (hnests.within beginning hbeginning).1, hnests.opened, hnests.closed,
    ⟨hnests.reached, ?_⟩, isGreatest_nesting node⟩
  rintro n ⟨beginning, hbeginning, hcount⟩
  have hwithin := (hnests.within beginning hbeginning).2
  omega

/-- A tree with programs as an operand and as a statement. -/
def mixedPrograms : Node :=
  program [.binary (.program [.binary (.identifier "a") "+" (.identifier "b"), .number .nan]) "*" (.string "x"),
    .program [.identifier "y", .program [.binary .null "" (.program [])]]]

theorem parentheses_of_text_mixedPrograms :
    mixedPrograms.WithoutParentheses ∧ mixedPrograms.text = "((a + b)NaN * \"x\")y(null  )" ∧
    mixedPrograms.text.toList.count '(' = 3 ∧ mixedPrograms.text.toList.count ')' = 3 ∧
    IsGreatest {n | ∃ beginning, beginning <+: mixedPrograms.text.toList ∧
      beginning.count '(' = beginning.count ')' + n} 2 := by
  have hwithout : mixedPrograms.WithoutParentheses := by decide +kernel
  have hcount : mixedPrograms.countOf .binaryExpression = 3 := by decide +kernel
  obtain ⟨-, hopened, hclosed, hgreatest, -⟩ := parentheses_of_text hwithout
  exact ⟨hwithout, congrArg String.ofList (by decide), hopened.trans hcount, hclosed.trans hcount, hgreatest⟩

end Node

end SyntaxTree
