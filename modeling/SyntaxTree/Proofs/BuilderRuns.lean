import SyntaxTree.Builder

/-!
Runs of a builder. The setters may be called in any order and any number of times; a builder then holds the last value
that each of them was given. So building succeeds exactly if each was called, and otherwise the refusal names the first
part that was never given, in its error and in the one entry it adds to the log.
-/

namespace SyntaxTree.Builder

/-! ### Calls -/

/-- What a builder collects. -/
inductive Part where
  | left
  | right
  | operator
deriving DecidableEq

/-- One call of a setter. -/
inductive Call where
  | left (node : Node)
  | right (node : Node)
  | operator (text : String)

def Call.part : Call → Part
  | left _ => .left
  | right _ => .right
  | operator _ => .operator

def apply (b : Builder) : Call → Builder
  | .left node => b.left node
  | .right node => b.right node
  | .operator text => b.operator text

/-- A new builder after some calls. -/
def ofCalls (calls : List Call) : Builder := calls.foldl apply {}

namespace Part

/-- The parts in the order in which building looks for them. -/
def all : List Part := [left, right, operator]

/-- What a part is. -/
abbrev Value : Part → Type
  | left => Node
  | right => Node
  | operator => String

/-- A part of a builder, if it is set. -/
def value? : (part : Part) → Builder → Option part.Value
  | left, b => b.left?
  | right, b => b.right?
  | operator, b => b.operator?

/-- What a call gives for a part. -/
def given? : (part : Part) → Call → Option part.Value
  | left, .left node => some node
  | right, .right node => some node
  | operator, .operator text => some text
  | _, _ => none

/-- What calls gave last for a part. -/
def last? (part : Part) (calls : List Call) : Option part.Value := (calls.filterMap part.given?).getLast?

def field : Part → String
  | left => "left"
  | right => "right"
  | operator => "operator"

/-- The error of a builder without a part. -/
def missing : Part → NodeError
  | left => .missingPart "left"
  | right => .missingPart "right"
  | operator => .missingOperator .binaryExpression

theorem mem_all (part : Part) : part ∈ all := by cases part <;> decide

theorem value?_apply (part : Part) (b : Builder) (call : Call) :
    part.value? (b.apply call) = (part.given? call).or (part.value? b) := by
  cases part <;> cases call <;> rfl

theorem isSome_given? (part : Part) (call : Call) : (part.given? call).isSome = true ↔ call.part = part := by
  cases part <;> cases call <;> simp [given?, Call.part]

/-- Each part is what was given last for it, and stays what it was if nothing was given. -/
theorem value?_foldl (part : Part) (calls : List Call) (b : Builder) :
    part.value? (calls.foldl apply b) = (part.last? calls).or (part.value? b) := by
  induction calls generalizing b with
  | nil => rfl
  | cons call calls ih =>
    rw [List.foldl_cons, ih, value?_apply, last?, last?, List.filterMap_cons]
    cases part.given? call with
    | none => rfl
    | some value =>
      rw [List.getLast?_cons]
      cases (calls.filterMap part.given?).getLast? <;> rfl

theorem value?_ofCalls (part : Part) (calls : List Call) : part.value? (ofCalls calls) = part.last? calls := by
  have hblank : part.value? ({} : Builder) = none := by cases part <;> rfl
  rw [ofCalls, value?_foldl, hblank, Option.or_none]

theorem isSome_last? (part : Part) (calls : List Call) :
    (part.last? calls).isSome = true ↔ part ∈ calls.map Call.part := by
  rw [last?, List.getLast?_isSome, List.mem_map]
  constructor
  · intro hne
    obtain ⟨value, hvalue⟩ := List.exists_mem_of_ne_nil _ hne
    obtain ⟨call, hcall, hgiven⟩ := List.mem_filterMap.mp hvalue
    exact ⟨call, hcall, (isSome_given? part call).mp (Option.isSome_of_eq_some hgiven)⟩
  · rintro ⟨call, hcall, hpart⟩
    obtain ⟨value, hgiven⟩ := Option.isSome_iff_exists.mp ((isSome_given? part call).mpr hpart)
    exact List.ne_nil_of_mem (List.mem_filterMap.mpr ⟨call, hcall, hgiven⟩)

end Part

/-! ### Setters -/

/-- Setters of different parts may change places. -/
theorem apply_comm {call call' : Call} (h : call.part ≠ call'.part) (b : Builder) :
    (b.apply call).apply call' = (b.apply call').apply call := by
  cases call <;> cases call' <;> first | rfl | exact absurd rfl h

/-- A setter takes back what was set before. -/
theorem apply_apply {call call' : Call} (h : call.part = call'.part) (b : Builder) :
    (b.apply call).apply call' = b.apply call' := by
  cases call <;> cases call' <;> first | rfl | cases h

/-- What a setter set is gone after a later call of it, whatever is called between. -/
theorem foldl_apply_apply {call call' : Call} (h : call.part = call'.part) (between : List Call) (b : Builder) :
    (between.foldl apply (b.apply call)).apply call' = (between.foldl apply b).apply call' := by
  induction between generalizing b with
  | nil => exact apply_apply h b
  | cons next between ih =>
    rw [List.foldl_cons, List.foldl_cons]
    by_cases hpart : call.part = next.part
    · rw [apply_apply hpart]
    · rw [apply_comm hpart, ih]

/-! ### Building -/

/-- The first part that no call set. -/
def firstUnset (calls : List Call) : Option Part := Part.all.find? fun part => decide (part ∉ calls.map Call.part)

theorem firstUnset_eq_none_iff (calls : List Call) :
    firstUnset calls = none ↔ ∀ part : Part, part ∈ calls.map Call.part := by
  simp [firstUnset, List.find?_eq_none, Part.mem_all]

theorem firstUnset_eq (calls : List Call) :
    firstUnset calls = Part.all.find? fun part => (part.value? (ofCalls calls)).isNone := by
  refine congrArg (Part.all.find? ·) (funext fun part => ?_)
  rw [Part.value?_ofCalls, Bool.eq_iff_iff, decide_eq_true_iff, ← Part.isSome_last?, Bool.not_eq_true,
    Option.isSome_eq_false_iff]

/-- Building with all parts makes the expression and logs nothing. -/
theorem build_of_set {b : Builder} {left right : Node} {operator : String} (hleft : b.left? = some left)
    (hright : b.right? = some right) (hoperator : b.operator? = some operator) (log : List Event) :
    b.build.run log = (.ok (.binary left operator right), log) := by
  obtain ⟨left?, right?, operator?⟩ := b
  cases hleft
  cases hright
  cases hoperator
  rfl

/-- Building without a part refuses the first missing one and logs the refusal. -/
theorem build_of_unset {b : Builder} {part : Part}
    (h : (Part.all.find? fun part => (part.value? b).isNone) = some part) (log : List Event) :
    b.build.run log = (.error part.missing, log ++ [part.missing.rejected]) := by
  rcases b with ⟨_ | left, _ | right, _ | operator⟩ <;> cases h <;> rfl

theorem build_ofCalls_of_set {calls : List Call} (h : firstUnset calls = none) (log : List Event) :
    ∃ left right operator, Part.left.last? calls = some left ∧ Part.right.last? calls = some right ∧
      Part.operator.last? calls = some operator ∧
      (ofCalls calls).build.run log = (.ok (.binary left operator right), log) := by
  have hset : ∀ part : Part, ∃ value, part.last? calls = some value := fun part =>
    Option.isSome_iff_exists.mp ((Part.isSome_last? part calls).mpr ((firstUnset_eq_none_iff calls).mp h part))
  obtain ⟨left, hleft⟩ := hset .left
  obtain ⟨right, hright⟩ := hset .right
  obtain ⟨operator, hoperator⟩ := hset .operator
  refine ⟨left, right, operator, hleft, hright, hoperator, build_of_set ?_ ?_ ?_ log⟩
  · exact (Part.value?_ofCalls .left calls).trans hleft
  · exact (Part.value?_ofCalls .right calls).trans hright
  · exact (Part.value?_ofCalls .operator calls).trans hoperator

/-- What building gives after any calls on a new builder. It succeeds exactly if each part was set; the expression then
has the part that was given last for each, and nothing is logged. Otherwise the error names the first part that was
never set, and one entry is logged, with the code, the kind and the field of this error. Setters of different parts may
change places, and what a setter was given is gone after a later call of it. -/
theorem build_of_calls (calls : List Call) (log : List Event) :
    ((∃ node, ((ofCalls calls).build.run log).1 = .ok node) ↔ ∀ part : Part, part ∈ calls.map Call.part) ∧
    (match firstUnset calls with
      | none => ∃ left right operator, Part.left.last? calls = some left ∧ Part.right.last? calls = some right ∧
          Part.operator.last? calls = some operator ∧
          (ofCalls calls).build.run log = (.ok (.binary left operator right), log)
      | some part => ∃ event, (ofCalls calls).build.run log = (.error part.missing, log ++ [event]) ∧
          part.missing.field? = some part.field ∧ event.code = part.missing.code ∧ event.kind? = part.missing.kind? ∧
          event.field? = part.missing.field?) ∧
    (∀ before after call call', call.part ≠ call'.part →
      ofCalls (before ++ call :: call' :: after) = ofCalls (before ++ call' :: call :: after)) ∧
    ∀ before between after call call', call.part = call'.part →
      ofCalls (before ++ call :: between ++ call' :: after) = ofCalls (before ++ between ++ call' :: after) := by
  refine ⟨?_, ?_, fun before after call call' h => ?_, fun before between after call call' h => ?_⟩
  · rw [← firstUnset_eq_none_iff]
    cases hunset : firstUnset calls with
    | none =>
      obtain ⟨left, right, operator, -, -, -, hbuild⟩ := build_ofCalls_of_set hunset log
      exact ⟨fun _ => rfl, fun _ => ⟨.binary left operator right, congrArg Prod.fst hbuild⟩⟩
    | some part =>
      rw [firstUnset_eq] at hunset
      rw [build_of_unset hunset]
      simp
  · cases hunset : firstUnset calls with
    | none => exact build_ofCalls_of_set hunset log
    | some part =>
      rw [firstUnset_eq] at hunset
      refine ⟨part.missing.rejected, build_of_unset hunset log, ?_, rfl, rfl, rfl⟩
      cases part <;> rfl
  · simp only [ofCalls, List.foldl_append, List.foldl_cons]
    rw [apply_comm h]
  · simp only [ofCalls, List.foldl_append, List.foldl_cons]
    rw [foldl_apply_apply h]

/-- An empty operator is an operator, and the later left operand counts. -/
example : (ofCalls [.left .null, .operator "", .right .null, .left (.identifier "x")]).run =
    (.ok (.binary (.identifier "x") "" .null), []) := rfl

end SyntaxTree.Builder
