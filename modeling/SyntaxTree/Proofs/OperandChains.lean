import SyntaxTree.Chain
import SyntaxTree.Proofs.BuilderRuns
import SyntaxTree.Proofs.RoundTrip

/-!
Chains of operands. A builder that takes the expression made so far as its left operand, again and again, makes the
chain that leans to the left, whichever of the other two parts it is given first. The text of such a chain opens all
its parentheses at the front and closes one behind each operand; the chain that leans to the right mirrors it.
-/

namespace SyntaxTree

namespace Builder

/-- What one step adds to a chain of operands, and whether the operator is set before the operand. -/
structure Link where
  operator : String
  operand : Node
  operatorFirst : Bool

namespace Link

def step (link : Link) : String × Node := (link.operator, link.operand)

/-- The calls of a step that starts from a node. -/
def calls (link : Link) (node : Node) : List Call :=
  .left node ::
    if link.operatorFirst then [.operator link.operator, .right link.operand]
    else [.right link.operand, .operator link.operator]

def build (link : Link) (node : Node) : Logged Node := (ofCalls (link.calls node)).build

theorem ofCalls_calls (link : Link) (node : Node) :
    ofCalls (link.calls node) = ⟨some node, some link.operand, some link.operator⟩ := by
  rcases link with ⟨operator, operand, _ | _⟩ <;> rfl

theorem build_run (link : Link) (node : Node) (log : List Event) :
    (link.build node).run log = (.ok (.binary node link.operator link.operand), log) := by
  rw [build, ofCalls_calls]
  exact build_of_set rfl rfl rfl log

end Link

/-- Behind an action that succeeds, the next one starts from its result and from the log that it leaves. -/
theorem run_bind_of_ok {α β : Type} {action : Logged α} {next : α → Logged β} {log log' : List Event} {a : α}
    (h : action.run log = (.ok a, log')) : (action >>= next).run log = (next a).run log' := by
  have hbind : (action >>= next).run log = ExceptT.bindCont next (action.run log).1 (action.run log).2 := rfl
  rw [hbind, h]
  rfl

/-- Takes one step after the other, each from the node that the one before made. -/
def chain (first : Node) (links : List Link) : Logged Node := links.foldlM (fun node link => link.build node) first

/-- All steps succeed, and they make the chain to the left. -/
theorem chain_run (first : Node) (links : List Link) (log : List Event) :
    (chain first links).run log = (.ok (first.leftChain (links.map Link.step)), log) := by
  induction links generalizing first with
  | nil => rfl
  | cons link links ih =>
    rw [chain, List.foldlM_cons, run_bind_of_ok (link.build_run first log)]
    exact ih (.binary first link.operator link.operand)

end Builder

namespace Node

/-! ### Texts -/

/-- What a further operand adds behind the text of a chain to the left. -/
def textBehind (step : String × Node) : List Char :=
  ' ' :: (step.1.toList ++ ' ' :: (step.2.textChars ++ [')']))

/-- What a further operand adds in front of the text of a chain to the right. -/
def textBefore (step : String × Node) : List Char :=
  '(' :: (step.2.textChars ++ ' ' :: (step.1.toList ++ [' ']))

theorem textChars_leftChain (first : Node) (steps : List (String × Node)) :
    (first.leftChain steps).textChars =
      List.replicate steps.length '(' ++ (first.textChars ++ steps.flatMap textBehind) := by
  induction steps generalizing first with
  | nil => simp [leftChain]
  | cons step steps ih =>
    have hstep : first.leftChain (step :: steps) = (binary first step.1 step.2).leftChain steps := rfl
    rw [hstep, ih, textChars_binary, List.length_cons, List.replicate_succ', List.flatMap_cons, textBehind]
    simp only [List.append_assoc, List.cons_append, List.nil_append]

theorem textChars_rightChain (steps : List (String × Node)) (last : Node) :
    (rightChain steps last).textChars =
      steps.flatMap textBefore ++ (last.textChars ++ List.replicate steps.length ')') := by
  induction steps with
  | nil => simp [rightChain]
  | cons step steps ih =>
    have hstep : rightChain (step :: steps) last = binary step.2 step.1 (rightChain steps last) := rfl
    rw [hstep, textChars_binary, ih, List.length_cons, List.replicate_succ', List.flatMap_cons, textBefore]
    simp only [List.append_assoc, List.cons_append, List.nil_append]

/-! ### Depths -/

theorem jsonDepth_pos (node : Node) : 0 < node.jsonDepth := by
  cases node <;> simp [jsonDepth]

theorem jsonDepth_of_isLeaf {node : Node} (h : node.kind.isLeaf = true) : node.jsonDepth = 1 := by
  cases node <;> first | rfl | cases h

theorem jsonDepth_leftChain (first : Node) {steps : List (String × Node)}
    (h : ∀ step ∈ steps, step.2.kind.isLeaf = true) :
    (first.leftChain steps).jsonDepth = first.jsonDepth + steps.length := by
  induction steps generalizing first with
  | nil => rfl
  | cons step steps ih =>
    have hstep : first.leftChain (step :: steps) = (binary first step.1 step.2).leftChain steps := rfl
    have hfirst := first.jsonDepth_pos
    rw [hstep, ih _ fun step hmem => h step (List.mem_cons_of_mem _ hmem), jsonDepth,
      jsonDepth_of_isLeaf (h step List.mem_cons_self), List.length_cons]
    omega

theorem jsonDepth_rightChain {steps : List (String × Node)} (last : Node)
    (h : ∀ step ∈ steps, step.2.kind.isLeaf = true) :
    (rightChain steps last).jsonDepth = last.jsonDepth + steps.length := by
  induction steps with
  | nil => rfl
  | cons step steps ih =>
    have hstep : rightChain (step :: steps) last = binary step.2 step.1 (rightChain steps last) := rfl
    have hlast := last.jsonDepth_pos
    rw [hstep, jsonDepth, ih fun step hmem => h step (List.mem_cons_of_mem _ hmem),
      jsonDepth_of_isLeaf (h step List.mem_cons_self), List.length_cons]
    omega

/-- Each number of steps on new builders makes the chain to the left of so many operands and logs nothing. The text of
a chain to the left has all its opening parentheses in front of the first operand, and that of a chain to the right all
its closing ones behind the last. Over leaves, both chains are one bracket deeper in JSON for each step. -/
theorem chains_of_operands (first : Node) (links : List Builder.Link) (log : List Event) :
    let steps := links.map Builder.Link.step
    (∀ count, (Builder.chain first (links.take count)).run log = (.ok (first.leftChain (steps.take count)), log)) ∧
    (first.leftChain steps).text =
      String.ofList (List.replicate steps.length '(' ++ (first.textChars ++ steps.flatMap textBehind)) ∧
    (rightChain steps first).text =
      String.ofList (steps.flatMap textBefore ++ (first.textChars ++ List.replicate steps.length ')')) ∧
    ((∀ node ∈ first :: steps.map Prod.snd, node.kind.isLeaf = true) →
      ∀ chain ∈ [first.leftChain steps, rightChain steps first],
        chain.jsonDepth = steps.length + 1 ∧ Json.maxOpen chain.json = steps.length + 1) := by
  intro steps
  refine ⟨fun count => ?_, congrArg String.ofList (textChars_leftChain first steps),
    congrArg String.ofList (textChars_rightChain steps first), fun hleaves => ?_⟩
  · rw [Builder.chain_run, List.map_take]
  · obtain ⟨hfirst, hsteps⟩ := List.forall_mem_cons.mp hleaves
    have hoperands : ∀ step ∈ steps, step.2.kind.isLeaf = true := fun step hstep =>
      hsteps step.2 (List.mem_map_of_mem hstep)
    have hdepth : ∀ chain ∈ [first.leftChain steps, rightChain steps first], chain.jsonDepth = steps.length + 1 := by
      rw [List.forall_mem_cons, List.forall_mem_singleton, jsonDepth_leftChain first hoperands,
        jsonDepth_rightChain first hoperands, jsonDepth_of_isLeaf hfirst, Nat.add_comm]
      exact ⟨rfl, rfl⟩
    exact fun chain hchain => ⟨hdepth chain hchain, (maxOpen_json chain).trans (hdepth chain hchain)⟩

example : (Builder.chain .null [⟨"+", .identifier "a", true⟩, ⟨"", .string "b", false⟩]).run [] =
    (.ok (.binary (.binary .null "+" (.identifier "a")) "" (.string "b")), []) := rfl

end Node

end SyntaxTree
