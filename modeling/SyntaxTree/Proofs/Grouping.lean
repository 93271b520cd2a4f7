import Mathlib.Logic.Relation
import SyntaxTree.Proofs.Walk

/-!
Programs as groups of statements. A program is written as its statements one after the other, so its text does not show
which of them stand in programs of their own. Regrouping takes such programs away, one at a time; it ends in one tree,
whatever is regrouped first, and the text stays the same.
-/

namespace SyntaxTree

namespace Node

/-! ### Regrouping -/

/-- One group of statements less in a tree. A program among the statements of a program gives way to its own
statements, and a program of one statement gives way to this statement; at the root, as an operand and among
statements alike. -/
inductive Regroups : Node → Node → Prop where
  | splice (before body after : List Node) :
    Regroups (program (before ++ program body :: after)) (program (before ++ (body ++ after)))
  | lone (node : Node) : Regroups (program [node]) node
  | statement (before after : List Node) {node node' : Node} (h : Regroups node node') :
    Regroups (program (before ++ node :: after)) (program (before ++ node' :: after))
  | left (operator : String) (right : Node) {node node' : Node} (h : Regroups node node') :
    Regroups (binary node operator right) (binary node' operator right)
  | right (left : Node) (operator : String) {node node' : Node} (h : Regroups node node') :
    Regroups (binary left operator node) (binary left operator node')

/-- Any number of such steps. -/
abbrev RegroupsTo : Node → Node → Prop := Relation.ReflTransGen Regroups

/-- A tree in which there is nothing to regroup. -/
def IsUngrouped (node : Node) : Prop := ∀ next, ¬Regroups node next

/-- One node for the given statements: a program of them, if they are not a single one. -/
def group : List Node → Node
  | [node] => node
  | nodes => program nodes

mutual

/-- The statements that a node stands for in a program: those of a program and of the programs among them, and
any other node by itself, with its operands regrouped. -/
def statements : Node → List Node
  | program body => allStatements body
  | binary left operator right => [binary (group left.statements) operator (group right.statements)]
  | node => [node]

def allStatements : List Node → List Node
  | [] => []
  | node :: nodes => node.statements ++ allStatements nodes

end

/-- The same tree with all statements regrouped. -/
def ungrouped (node : Node) : Node := group node.statements

theorem allStatements_append (nodes more : List Node) :
    allStatements (nodes ++ more) = allStatements nodes ++ allStatements more := by
  induction nodes with
  | nil => rfl
  | cons node nodes ih => rw [List.cons_append, allStatements, allStatements, ih, List.append_assoc]

/-! ### Steps -/

theorem textChars_eq_of_regroups {node node' : Node} (h : Regroups node node') : node.textChars = node'.textChars := by
  induction h with
  | splice before body after => simp only [textChars_program, List.flatMap_append, List.flatMap_cons]
  | lone node => rw [textChars_program, List.flatMap_singleton]
  | statement before after h ih =>
    simp only [textChars_program, List.flatMap_append, List.flatMap_cons, ih]
  | left operator right h ih => rw [textChars_binary, textChars_binary, ih]
  | right left operator h ih => rw [textChars_binary, textChars_binary, ih]

theorem text_eq_of_regroupsTo {node node' : Node} (h : RegroupsTo node node') : node'.text = node.text := by
  induction h with
  | refl => rfl
  | tail _ hstep ih => rw [← ih, text, text, textChars_eq_of_regroups hstep]

/-- Each step takes away one program. -/
theorem countOf_of_regroups {node node' : Node} (h : Regroups node node') :
    node'.countOf .program + 1 = node.countOf .program := by
  have hprogram : ∀ body : List Node, (program body).countOf .program = 1 + (body.map (countOf .program)).sum :=
    fun body => countOf_eq .program (program body)
  have hbinary : ∀ left operator right, (binary left operator right).countOf .program =
      left.countOf .program + right.countOf .program := by
    intro left operator right
    rw [countOf_eq]
    simp [kind, children]
  induction h with
  | splice before body after =>
    simp only [hprogram, List.map_append, List.map_cons, List.sum_append, List.sum_cons]
    omega
  | lone node =>
    simp only [hprogram, List.map_cons, List.map_nil, List.sum_cons, List.sum_nil]
    omega
  | statement before after h ih =>
    simp only [hprogram, List.map_append, List.map_cons, List.sum_append, List.sum_cons, ← ih]
    omega
  | left operator right h ih =>
    rw [hbinary, hbinary, ← ih]
    omega
  | right left operator h ih =>
    rw [hbinary, hbinary, ← ih]
    omega

theorem wellFounded_regroups : WellFounded fun next node : Node => Regroups node next :=
  Subrelation.wf (fun h => Nat.lt_of_succ_le (Nat.le_of_eq (countOf_of_regroups h)))
    (InvImage.wf (countOf .program) Nat.lt_wfRel.wf)

theorem statements_eq_of_regroups {node node' : Node} (h : Regroups node node') :
    node.statements = node'.statements := by
  induction h with
  | splice before body after =>
    simp only [statements, allStatements_append, allStatements]
  | lone node => rw [statements, allStatements, allStatements, List.append_nil]
  | statement before after h ih => simp only [statements, allStatements_append, allStatements, ih]
  | left operator right h ih => rw [statements, statements, ih]
  | right left operator h ih => rw [statements, statements, ih]

theorem ungrouped_eq_of_regroupsTo {node node' : Node} (h : RegroupsTo node node') :
    node.ungrouped = node'.ungrouped := by
  induction h with
  | refl => rfl
  | tail _ hstep ih => rw [ih, ungrouped, ungrouped, statements_eq_of_regroups hstep]

/-! ### Trees with nothing to regroup -/

theorem isUngrouped_program {body : List Node} (hlength : body.length ≠ 1)
    (h : ∀ node ∈ body, node.kind ≠ .program ∧ node.IsUngrouped) : (program body).IsUngrouped := by
  intro next hstep
  -- a step says where it cuts the statements, so these are compared with `body` only afterwards
  generalize hnode : program body = node at hstep
  cases hstep with
  | splice before inner after =>
    cases hnode
    exact (h (program inner) (by simp)).1 rfl
  | lone node =>
    cases hnode
    exact hlength rfl
  | statement before after hinner =>
    cases hnode
    exact (h _ (by simp)).2 _ hinner
  | left _ _ _ => cases hnode
  | right _ _ _ => cases hnode

theorem isUngrouped_binary {left right : Node} (hleft : left.IsUngrouped) (hright : right.IsUngrouped)
    (operator : String) : (binary left operator right).IsUngrouped := by
  intro next hstep
  cases hstep with
  | left _ _ h => exact hleft _ h
  | right _ _ h => exact hright _ h

theorem isUngrouped_group {nodes : List Node} (h : ∀ node ∈ nodes, node.kind ≠ .program ∧ node.IsUngrouped) :
    (group nodes).IsUngrouped := by
  unfold group
  split
  · exact (h _ List.mem_cons_self).2
  · rename_i hlone
    refine isUngrouped_program ?_ h
    intro hlength
    obtain ⟨node, rfl⟩ := List.length_eq_one_iff.mp hlength
    exact hlone node rfl

theorem isUngrouped_statements (node : Node) :
    ∀ statement ∈ node.statements, statement.kind ≠ .program ∧ statement.IsUngrouped := by
  have hleaf : ∀ {leaf : Node}, leaf.kind.isLeaf = true → leaf.kind ≠ .program ∧ leaf.IsUngrouped := by
    intro leaf hkind
    refine ⟨fun h => by simp [h, Kind.isLeaf] at hkind, fun next hstep => ?_⟩
    cases hstep <;> cases hkind
  induction node using induction with
  | program body ih =>
    rw [statements]
    induction body with
    | nil => exact List.forall_mem_nil _
    | cons node nodes ih' =>
      rw [allStatements, List.forall_mem_append]
      exact ⟨ih node List.mem_cons_self, ih' fun node h => ih node (List.mem_cons_of_mem _ h)⟩
  | binary left operator right ihLeft ihRight =>
    rw [statements, List.forall_mem_singleton]
    exact ⟨nofun, isUngrouped_binary (isUngrouped_group ihLeft) (isUngrouped_group ihRight) operator⟩
  | number x => exact List.forall_mem_singleton.mpr (hleaf rfl)
  | null => exact List.forall_mem_singleton.mpr (hleaf rfl)
  | identifier symbol => exact List.forall_mem_singleton.mpr (hleaf rfl)
  | string value => exact List.forall_mem_singleton.mpr (hleaf rfl)

/-! ### Regrouping everything -/

/-- One node in the place of statements of a program gives way to them. -/
theorem regroupsTo_group (before nodes after : List Node) :
    RegroupsTo (program (before ++ group nodes :: after)) (program (before ++ (nodes ++ after))) := by
  unfold group
  split
  · exact .refl
  · exact .single (.splice before nodes after)

/-- A program gives way to the one node for its statements. -/
theorem regroupsTo_lone (nodes : List Node) : RegroupsTo (program nodes) (group nodes) := by
  unfold group
  split
  · exact .single (.lone _)
  · exact .refl

theorem regroupsTo_allStatements {body : List Node} (h : ∀ node ∈ body, RegroupsTo node node.ungrouped)
    (before : List Node) : RegroupsTo (program (before ++ body)) (program (before ++ allStatements body)) := by
  induction body generalizing before with
  | nil => exact .refl
  | cons node nodes ih =>
    have hnode : RegroupsTo (program (before ++ node :: nodes)) (program (before ++ node.ungrouped :: nodes)) :=
      (h node List.mem_cons_self).lift (fun node => program (before ++ node :: nodes)) fun _ _ hstep =>
        .statement before nodes hstep
    have hspliced := regroupsTo_group before node.statements nodes
    have hnodes := ih (fun node hnode => h node (List.mem_cons_of_mem _ hnode)) (before ++ node.statements)
    rw [List.append_assoc, List.append_assoc] at hnodes
    exact (hnode.trans hspliced).trans hnodes

theorem regroupsTo_ungrouped (node : Node) : RegroupsTo node node.ungrouped := by
  induction node using induction with
  | program body ih =>
    have hbody : RegroupsTo (program body) (program (allStatements body)) := regroupsTo_allStatements ih []
    exact hbody.trans (regroupsTo_lone (allStatements body))
  | binary left operator right ihLeft ihRight =>
    have hleft : RegroupsTo (binary left operator right) (binary left.ungrouped operator right) :=
      ihLeft.lift (binary · operator right) fun _ _ hstep => .left operator right hstep
    have hright : RegroupsTo (binary left.ungrouped operator right) (binary left.ungrouped operator right.ungrouped) :=
      ihRight.lift (binary left.ungrouped operator ·) fun _ _ hstep => .right left.ungrouped operator hstep
    exact hleft.trans hright
  | number x => exact .refl
  | null => exact .refl
  | identifier symbol => exact .refl
  | string value => exact .refl

/-- Regrouping as long as there is anything to regroup leads to one tree, whatever is regrouped first. -/
theorem ungrouped_iff (node final : Node) :
    RegroupsTo node final ∧ final.IsUngrouped ↔ final = node.ungrouped := by
  constructor
  · rintro ⟨hto, hend⟩
    -- `final` would regroup further unless it is what it regroups to
    rw [ungrouped_eq_of_regroupsTo hto]
    rcases Relation.ReflTransGen.cases_head (regroupsTo_ungrouped final) with heq | ⟨next, hstep, -⟩
    · exact heq
    · exact absurd hstep (hend next)
  · rintro rfl
    exact ⟨regroupsTo_ungrouped node, isUngrouped_group (isUngrouped_statements node)⟩

example : (program [.program [], .binary (.program [.program [.identifier "x"]]) "+" .null]).ungrouped =
    binary (.identifier "x") "+" .null := rfl

/-! ### Texts -/

theorem text_program_append (statements more : List Node) :
    (program (statements ++ more)).text = (program statements).text ++ (program more).text := by
  rw [text, text, text, textChars_program, textChars_program, textChars_program, List.flatMap_append,
    String.ofList_append]

theorem programOf_iter (statements : List Node) : programOf statements.iter = program statements := by
  rw [programOf, List.toList_iter]

theorem programOf_append (statements more : List Node) :
    programOf (statements.iter.append more.iter) = program (statements ++ more) := by
  rw [programOf, Std.Iter.toList_append, List.toList_iter, List.toList_iter]

/-- Regrouping a tree comes to an end, in one tree whatever is regrouped first, and the text of this tree is that of the
first one. So the text of a program of some statements and more is that of a program of the first ones and then that of
a program of the others, also if the program is collected from an iterator over all of them, or from two iterators one
after the other. -/
theorem text_ungrouped :
    (WellFounded fun next node : Node => Regroups node next) ∧
    (∀ node final : Node, RegroupsTo node final ∧ final.IsUngrouped ↔ final = node.ungrouped) ∧
    (∀ node : Node, node.ungrouped.text = node.text) ∧
    ∀ statements more : List Node,
      (program (statements ++ more)).text = (program statements).text ++ (program more).text ∧
      (programOf (statements ++ more).iter).text = (program statements).text ++ (program more).text ∧
      (programOf (statements.iter.append more.iter)).text = (program statements).text ++ (program more).text := by
  refine ⟨wellFounded_regroups, ungrouped_iff, fun node => text_eq_of_regroupsTo (regroupsTo_ungrouped node),
    fun statements more => ?_⟩
  have happend := text_program_append statements more
  rw [programOf_append, programOf_iter]
  exact ⟨happend, happend, happend⟩

end Node

end SyntaxTree
