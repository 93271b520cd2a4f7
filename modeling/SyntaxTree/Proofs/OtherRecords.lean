import SyntaxTree.Proofs.MemberOrder
import SyntaxTree.Proofs.PositionalText
import SyntaxTree.Proofs.RoundTrip

/-!
The two forms of a node read as one another. Read as a record, the text of a node has one member too many, its tag,
which is skipped; what is left are the fields of its own kind. Another kind asks for other fields, save that numbers
and strings both have a value, and the names of the numbers that are not finite do for both. Read as a node, the text
of a record lacks the tag.
-/

namespace SyntaxTree

open Json

/-- The names of the numbers that are not finite. -/
def Double.names : List String := ["NaN", "+Inf", "-Inf"]

theorem Double.mem_names_iff {name : String} : name ∈ Double.names ↔ ∃ x, Double.ofName? name = some x := by
  unfold ofName?
  split
  · simp [names, *]
  · split
    · simp [names, *]
    · split
      · simp [names, *]
      · simp [names, *]

/-- Two kinds that share the name of a field are those of numbers and of strings. -/
theorem Kind.eq_of_mem_fields {k l : Kind} {name : String} (hk : name ∈ k.fields) (hl : name ∈ l.fields)
    (hne : k ≠ l) : k = numericLiteral ∧ l = stringLiteral ∨ k = stringLiteral ∧ l = numericLiteral := by
  cases k <;> cases l <;> simp_all [fields]

theorem Kind.exists_field {k : Kind} (h : k ≠ nullLiteral) : ∃ name names, k.fields = name :: names := by
  cases k with
  | nullLiteral => exact absurd rfl h
  | program => exact ⟨_, _, rfl⟩
  | numericLiteral => exact ⟨_, _, rfl⟩
  | identifier => exact ⟨_, _, rfl⟩
  | binaryExpression => exact ⟨_, _, rfl⟩
  | stringLiteral => exact ⟨_, _, rfl⟩

theorem Draft.finish_blank {k : Kind} {name : String} {names : List String} (h : k.fields = name :: names) :
    (blank k).finish = .error (.missing name) := by
  cases k <;> cases h <;> rfl

namespace Node

/-- The tag is skipped where the kind of a record is known. -/
theorem recordMeaning_tagged (k l : Kind) (members : List (String × Value)) (room : Nat) :
    (tagged l members).spelling.recordMeaning k room = (Value.object members).spelling.recordMeaning k room := by
  rw [tagged, Value.spelling, Value.spelling, Spelling.recordMeaning, Spelling.recordMeaning]
  congr 1
  funext room
  rw [foldMembers_cons, Spelling.addField, slot_tagName, ok_bind]

/-- Members that are no fields are skipped, whatever their values. -/
theorem foldMembers_skip {draft : Draft} {members : List (String × Value)}
    (h : ∀ member ∈ members, member.1 ∉ draft.kind.fields) (room : Nat) :
    foldMembers (Spelling.addField room) draft (Value.membersSpelling members) = .ok draft := by
  induction members with
  | nil => rfl
  | cons member members ih =>
    rw [foldMembers_cons, Spelling.addField, Draft.slot_eq_unknown_iff.mpr (h member List.mem_cons_self)]
    exact ih fun member hmember => h member (List.mem_cons_of_mem _ hmember)

/-- A record without any of its fields lacks the first one. -/
theorem recordMeaning_of_skip {k : Kind} {name : String} {names : List String} (hfields : k.fields = name :: names)
    {members : List (String × Value)} (h : ∀ member ∈ members, member.1 ∉ k.fields) (room : Nat) :
    (Value.object members).spelling.recordMeaning k (room + 1) = .error (.missing name) := by
  rw [Value.spelling, Spelling.recordMeaning, enter, ok_bind, foldMembers_skip (by rwa [Draft.kind_blank]), ok_bind,
    Draft.finish_blank hfields]

/-- A record with a value is its value in its place. -/
theorem recordMeaning_value {k : Kind} {place : Place} {fill : place.Content → Draft}
    (hslot : (Draft.blank k).slot "value" = .vacant place fill) (v : Value) (room : Nat) :
    (Value.object [("value", v)]).spelling.recordMeaning k (room + 1) = (do
      let content ← v.spelling.contentMeaning room place
      (fill content).finish) := by
  rw [Value.spelling, Spelling.recordMeaning, enter, ok_bind, foldMembers_cons, Spelling.addField, hslot]
  simp only [bind_assoc, ok_bind]
  rfl

/-- A number is a string where it is written as its name. -/
theorem recordMeaning_number_as_string (x : Double) (room : Nat) :
    (∃ record, (number x).toRecord.spelling.recordMeaning .stringLiteral (room + 1) = .ok record) ↔
      ∃ name ∈ Double.names, ("value", .string name) ∈ (number x).members := by
  have hvalue := recordMeaning_value (k := .stringLiteral) rfl x.toValue room
  rw [toRecord, members, hvalue, Spelling.contentMeaning]
  cases hfinite : x.isFinite with
  | true =>
    have htext : (Value.float x).spelling.textMeaning .text = .error (.mismatch (.float x) .text) := by
      have hmeaning := (Value.float x).meaning_spelling hfinite 0
      rw [Value.depth, within_zero] at hmeaning
      · rw [Value.spelling, dif_pos hfinite] at hmeaning ⊢
        rw [Spelling.textMeaning_of_isScalar rfl, hmeaning]
        rfl
      all_goals simp
    rw [Double.toValue, if_pos hfinite, htext]
    constructor
    · rintro ⟨record, h⟩
      cases h
    · rintro ⟨name, -, h⟩
      simp at h
  | false =>
    have hname := Double.mem_names_iff.mpr ⟨_, Double.ofName?_text hfinite⟩
    rw [Double.toValue, if_neg (by simp [hfinite]), textMeaning_string]
    exact ⟨fun _ => ⟨x.text, hname, List.mem_singleton_self _⟩, fun _ => ⟨string x.text, rfl⟩⟩

/-- A string is a number where it is the name of one that is not finite. -/
theorem recordMeaning_string_as_number (text : String) (room : Nat) :
    (∃ record, (string text).toRecord.spelling.recordMeaning .numericLiteral (room + 1) = .ok record) ↔
      ∃ name ∈ Double.names, ("value", .string name) ∈ (string text).members := by
  have hvalue := recordMeaning_value (k := .numericLiteral) rfl (.string text) room
  have hcontent : (Value.string text).spelling.contentMeaning room .number = numberOfValue (.string text) := by
    rw [Spelling.contentMeaning, (Value.string text).meaning_spelling trivial, Value.depth, within_zero, ok_bind]
    all_goals simp
  rw [toRecord, members, hvalue, hcontent, numberOfValue]
  constructor
  · rintro ⟨record, h⟩
    refine ⟨text, Double.mem_names_iff.mpr ?_, List.mem_singleton_self _⟩
    split at h
    · rename_i x hx
      exact ⟨x, hx⟩
    · cases h
  · rintro ⟨name, hname, hmember⟩
    cases List.mem_singleton.mp hmember
    obtain ⟨x, hx⟩ := Double.mem_names_iff.mp hname
    rw [hx]
    exact ⟨number x, rfl⟩

/-- Read as a record of another kind, a node gives one if it is a number or a string, the other is asked for, and its
value is the name of a number that is not finite. -/
theorem recordMeaning_other {node : Node} {k : Kind} (hk : k ≠ .nullLiteral) (hne : k ≠ node.kind) (room : Nat) :
    (∃ record, node.toRecord.spelling.recordMeaning k (room + 1) = .ok record) ↔
      (node.kind = .numericLiteral ∧ k = .stringLiteral ∨ node.kind = .stringLiteral ∧ k = .numericLiteral) ∧
        ∃ name ∈ Double.names, ("value", .string name) ∈ node.members := by
  by_cases hshared : node.kind = .numericLiteral ∧ k = .stringLiteral ∨
      node.kind = .stringLiteral ∧ k = .numericLiteral
  · rw [and_iff_right hshared]
    rcases hshared with ⟨hkind, rfl⟩ | ⟨hkind, rfl⟩
    · cases node <;> cases hkind
      exact recordMeaning_number_as_string _ room
    · cases node <;> cases hkind
      exact recordMeaning_string_as_number _ room
  · obtain ⟨name, names, hfields⟩ := Kind.exists_field hk
    have hskip : ∀ member ∈ node.members, member.1 ∉ k.fields := by
      intro member hmember hfield
      have hown : member.1 ∈ node.kind.fields := by
        rw [← map_fst_members]
        exact List.mem_map_of_mem hmember
      exact hshared (Kind.eq_of_mem_fields hown hfield hne.symm)
    rw [toRecord, recordMeaning_of_skip hfields hskip]
    constructor
    · rintro ⟨record, h⟩
      cases h
    · exact fun h => absurd h.1 hshared

/-- Read as a node, a record lacks its tag. -/
theorem nodeMeaning_toRecord (node : Node) {room : Nat} (h : node.jsonDepth ≤ room) :
    node.toRecord.spelling.nodeMeaning room = .error (.missing tagName) := by
  have hdepth : node.toRecord.depth ≤ room := (depth_toRecord node).trans_le h
  obtain ⟨inner, rfl⟩ := exists_room hdepth
  rw [toRecord, Value.spelling, Spelling.nodeMeaning, enter, ok_bind,
    foldMembers_addMember _ (ne_tagName_of_mem_members node) (isReadable_toValue node).2,
    within_of_le (Nat.le_of_succ_le_succ hdepth)]
  rfl

/-- The text of a node gives a record of its own kind, and a record of another kind only where a number that is not
finite is taken for a string or its name for a number. The text of a record gives no node. -/
theorem json_as_record (node : Node) (hdepth : node.jsonDepth ≤ 127) :
    (∀ k : Kind, k ≠ .nullLiteral →
      ((∃ record, loadRecord k node.json = .ok record) ↔
        k = node.kind ∨
          (node.kind = .numericLiteral ∧ k = .stringLiteral ∨ node.kind = .stringLiteral ∧ k = .numericLiteral) ∧
            ∃ name ∈ ["NaN", "+Inf", "-Inf"], ("value", .string name) ∈ node.members)) ∧
    loadRecord node.kind node.json = .ok node.canonical ∧
    load node.recordJson = .error (.missing "kind") := by
  have hload : ∀ k, loadRecord k node.json = node.toRecord.spelling.recordMeaning k maxDepth := by
    intro k
    rw [json_eq_textIn, loadRecord_textIn]
    exact recordMeaning_tagged k node.kind node.members maxDepth
  have hown : loadRecord node.kind node.json = .ok node.canonical := by
    rw [hload, recordMeaning_toRecord]
    exact within_of_le hdepth _
  refine ⟨?_, hown, ?_⟩
  · intro k hk
    by_cases hkind : k = node.kind
    · subst hkind
      exact ⟨fun _ => .inl rfl, fun _ => ⟨_, hown⟩⟩
    · rw [hload, or_iff_right hkind]
      exact recordMeaning_other hk hkind 126
  · rw [recordJson_eq_textIn, load_textIn]
    exact nodeMeaning_toRecord node hdepth

/-- What is no number is a string where a string is asked for, but no name. -/
theorem nan_as_record :
    (number .nan).jsonDepth ≤ 127 ∧
    (∃ record, loadRecord .stringLiteral (number .nan).json = .ok record) ∧
    (¬∃ record, loadRecord .identifier (number .nan).json = .ok record) ∧
    loadRecord .numericLiteral (number .nan).json = .ok (number .nan) ∧
    load (number .nan).recordJson = .error (.missing "kind") := by
  have hdepth : (number .nan).jsonDepth ≤ 127 := by decide
  obtain ⟨hother, hown, hbare⟩ := json_as_record (number .nan) hdepth
  refine ⟨hdepth, ?_, ?_, hown, hbare⟩
  · rw [hother .stringLiteral (by decide)]
    exact .inr ⟨.inl ⟨rfl, rfl⟩, "NaN", List.mem_cons_self, List.mem_singleton_self _⟩
  · rw [hother .identifier (by decide)]
    rintro (h | ⟨⟨-, h⟩ | ⟨-, h⟩, -⟩)
    all_goals cases h

end Node

end SyntaxTree
