import SyntaxTree.NodeError
import SyntaxTree.Proofs.PlainText

/-!
What the message of an error tells. Fields and unknown names stand in a message as they are, so they may hold anything
that messages consist of. Even so a message belongs to one error only: its first word is the name of the kind, or a word
that names none, and no kind has a space in its name; behind that word the two errors of one kind part at a fixed place,
and there is nothing open besides the field, or the unknown name.
-/

namespace SyntaxTree

theorem Kind.name_contains_space (k : Kind) : k.name.toList.contains ' ' = false := by cases k <;> decide

namespace NodeError

/-- The first word of a message. -/
def subject (e : NodeError) : String :=
  match e.kind? with
  | some k => k.name
  | none => "unknown"

/-- A message after its first word. -/
def complaint : NodeError → String
  | missingOperand _ field => "is missing its `" ++ field ++ "` operand"
  | missingOperator _ => "is missing its operator"
  | unknownKind tag => "node kind: " ++ tag

theorem message_eq (e : NodeError) : e.message = e.subject ++ (" " ++ e.complaint) := by
  cases e with
  | missingOperand kind field =>
    calc
      kind.name ++ " is missing its `" ++ field ++ "` operand"
        = kind.name ++ (" " ++ "is missing its `") ++ field ++ "` operand" := rfl
      _ = kind.name ++ (" " ++ ("is missing its `" ++ field ++ "` operand")) := by
        rw [String.append_assoc, String.append_assoc, String.append_assoc, String.append_assoc]
  | missingOperator kind => rfl
  | unknownKind tag =>
    calc
      "unknown node kind: " ++ tag = "unknown" ++ (" " ++ "node kind: ") ++ tag := rfl
      _ = "unknown" ++ (" " ++ ("node kind: " ++ tag)) := by rw [String.append_assoc, String.append_assoc]

theorem toList_message (e : NodeError) : e.message.toList = e.subject.toList ++ ' ' :: e.complaint.toList := by
  rw [message_eq, String.toList_append, String.toList_append]
  rfl

theorem subject_contains_space (e : NodeError) : e.subject.toList.contains ' ' = false := by
  rw [subject]
  cases e.kind? with
  | none => decide
  | some k => exact k.name_contains_space

/-- The first word of a message names the kind or shows that there is none. -/
theorem kind?_eq_of_subject {e e' : NodeError} (h : e.subject = e'.subject) : e.kind? = e'.kind? := by
  have hunnamed : ∀ k : Kind, k.name ≠ "unknown" := by
    intro k
    cases k <;> decide
  rw [subject, subject] at h
  cases hkind : e.kind? with
  | none =>
    cases hkind' : e'.kind? with
    | none => rfl
    | some k' =>
      rw [hkind, hkind'] at h
      exact absurd h.symm (hunnamed k')
  | some k =>
    cases hkind' : e'.kind? with
    | none =>
      rw [hkind, hkind'] at h
      exact absurd h (hunnamed k)
    | some k' =>
      rw [hkind, hkind'] at h
      exact congrArg some (Kind.name_inj h)

/-- A field is marked in front, and the operator is not, so no field makes the one complaint the other. -/
theorem complaint_ne_of_operator (kind kind' : Kind) (field : String) :
    (missingOperand kind field).complaint ≠ (missingOperator kind').complaint := by
  intro h
  have hparts : "is missing its " ++ ("`" ++ (field ++ "` operand")) = "is missing its " ++ "operator" := by
    calc
      "is missing its " ++ ("`" ++ (field ++ "` operand"))
        = "is missing its " ++ "`" ++ field ++ "` operand" := by rw [String.append_assoc, String.append_assoc]
      _ = "is missing its operator" := h
      _ = "is missing its " ++ "operator" := rfl
  have hchars : "`".toList ++ (field ++ "` operand").toList = "operator".toList := by
    rw [← String.toList_append, (String.append_right_inj _).mp hparts]
  obtain ⟨hhead, -⟩ := List.cons.inj hchars
  revert hhead
  decide

/-- Among the errors of one kind, or of none, the rest of the message tells them apart. -/
theorem eq_of_complaint {e e' : NodeError} (hkind : e.kind? = e'.kind?) (h : e.complaint = e'.complaint) : e = e' := by
  cases e with
  | missingOperand kind field =>
    cases e' with
    | missingOperand kind' field' =>
      cases hkind
      have hfield : "is missing its `" ++ field ++ "` operand" = "is missing its `" ++ field' ++ "` operand" := h
      rw [String.append_left_inj, String.append_right_inj] at hfield
      rw [hfield]
    | missingOperator kind' => exact absurd h (complaint_ne_of_operator kind kind' field)
    | unknownKind tag => cases hkind
  | missingOperator kind =>
    cases e' with
    | missingOperand kind' field' => exact absurd h.symm (complaint_ne_of_operator kind' kind field')
    | missingOperator kind' =>
      cases hkind
      rfl
    | unknownKind tag => cases hkind
  | unknownKind tag =>
    cases e' with
    | unknownKind tag' =>
      have htag : "node kind: " ++ tag = "node kind: " ++ tag' := h
      rw [String.append_right_inj] at htag
      rw [htag]
    | _ => cases hkind

theorem message_inj {e e' : NodeError} (h : e.message = e'.message) : e = e' := by
  have htext : e.subject.toList ++ ' ' :: e.complaint.toList = e'.subject.toList ++ ' ' :: e'.complaint.toList := by
    rw [← toList_message, ← toList_message, h]
  obtain ⟨hsubject, hcomplaint⟩ := Node.separated_inj e.subject_contains_space e'.subject_contains_space htext
  exact eq_of_complaint (kind?_eq_of_subject hsubject) (String.toList_injective hcomplaint)

/-- Two errors have one message exactly if they are one error; so the message determines the code, the kind and the
field. -/
theorem message_identifies (e e' : NodeError) :
    (e.message = e'.message ↔ e = e') ∧
    (e.message = e'.message → e.code = e'.code ∧ e.kind? = e'.kind? ∧ e.field? = e'.field?) := by
  refine ⟨⟨message_inj, fun h => congrArg message h⟩, fun h => ?_⟩
  rw [message_inj h]
  exact ⟨rfl, rfl, rfl⟩

/-- An operand that is missing from a binary expression is reported in one way, and a field that looks like the end of
a message does not make two messages one. -/
theorem message_identifies_missingPart :
    (missingPart "left").message = (missingOperand .binaryExpression "left").message ∧
    (missingPart "left").code = (missingOperand .binaryExpression "left").code ∧
    (missingPart "left").kind? = (missingOperand .binaryExpression "left").kind? ∧
    (missingPart "left").field? = (missingOperand .binaryExpression "left").field? ∧
    (missingPart "left").message ≠ (missingPart "left` operand").message := by
  have hmessage : (missingPart "left").message = (missingOperand .binaryExpression "left").message := rfl
  obtain ⟨hcode, hkind, hfield⟩ := (message_identifies _ _).2 hmessage
  refine ⟨hmessage, hcode, hkind, hfield, fun h => ?_⟩
  have hsame := (message_identifies _ _).1.mp h
  revert hsame
  decide

end NodeError

end SyntaxTree
