import SyntaxTree.Render
import SyntaxTree.Proofs.Brackets
import SyntaxTree.Proofs.FitsNode

/-!
Writing a tree and reading it back. A tree no deeper than 127 brackets comes back as it was, with canonical
numbers; a deeper one is refused for its depth and for nothing else. What has been read once is written in a
form that reads back to the same tree, whatever spelling it was read from.
-/

namespace SyntaxTree

open Json

namespace Node

/-! ### Depth -/

theorem json_eq_textIn (node : Node) : node.json = node.toValue.spelling.textIn {} := node.toValue.text_eq_textIn

theorem recordJson_eq_textIn (node : Node) : node.recordJson = node.toRecord.spelling.textIn {} :=
  node.toRecord.text_eq_textIn

/-- The depth of a tree is the largest number of brackets open at once in its text. -/
theorem maxOpen_json (node : Node) : maxOpen node.json = node.jsonDepth := by
  rw [json_eq_textIn, maxOpen_textIn, Value.depth_spelling, depth_toValue]

theorem depth_toRecord (node : Node) : node.toRecord.depth = node.jsonDepth := by
  rw [← depth_toValue, toValue, tagged, toRecord, Value.depth, Value.depth, Value.membersDepth, Value.depth,
    Nat.zero_max]
  all_goals simp

theorem maxOpen_recordJson (node : Node) : maxOpen node.recordJson = node.jsonDepth := by
  rw [recordJson_eq_textIn, maxOpen_textIn, Value.depth_spelling, depth_toRecord]

/-- Reading the text of a tree back depends on its depth alone. -/
theorem load_json (node : Node) : load node.json = within node.jsonDepth maxDepth node.canonical := by
  rw [json_eq_textIn, load_textIn, nodeMeaning_toValue]

theorem loadRecord_recordJson (node : Node) :
    loadRecord node.kind node.recordJson = within node.jsonDepth maxDepth node.canonical := by
  rw [recordJson_eq_textIn, loadRecord_textIn, recordMeaning_toRecord]

theorem within_eq_ok_iff {α : Type} {needed room : Nat} (a : α) :
    (∃ b, within needed room a = .ok b) ↔ needed ≤ room := by
  unfold within
  split
  · rename_i h
    exact ⟨fun _ => h, fun _ => ⟨a, rfl⟩⟩
  · rename_i h
    constructor
    · rintro ⟨b, hb⟩
      cases hb
    · exact fun hle => absurd hle h

theorem within_eq_tooDeep_iff {α : Type} {needed room : Nat} (a : α) :
    within needed room a = .error .tooDeep ↔ room < needed := by
  unfold within
  split
  · rename_i h
    constructor
    · intro heq
      cases heq
    · exact fun hlt => absurd h (Nat.not_le.mpr hlt)
  · rename_i h
    exact ⟨fun _ => Nat.not_le.mp h, fun _ => rfl⟩

/-- A text that loads as a node has no more than 127 brackets open at once. -/
theorem maxOpen_of_load {text : String} {node : Node} (h : load text = .ok node) : maxOpen text ≤ maxDepth := by
  obtain ⟨around, s, rfl, hmeaning⟩ := load_eq_ok h
  rw [maxOpen_textIn]
  exact (Spelling.fits_of_nodeMeaning hmeaning).1

/-! ### Canonical numbers -/

mutual

/-- Whether some number in a tree is no number. -/
def hasNaN : Node → Bool
  | program body => anyNaN body
  | number x => x.isNaN
  | binary left _ right => left.hasNaN || right.hasNaN
  | _ => false

def anyNaN : List Node → Bool
  | [] => false
  | node :: nodes => node.hasNaN || anyNaN nodes

end

theorem textChars_canonical (node : Node) : node.canonical.textChars = node.textChars := by
  induction node using induction with
  | program body ih =>
    have hbody : (canonicalAll body).flatMap textChars = body.flatMap textChars := by
      induction body with
      | nil => rfl
      | cons node nodes ih' =>
        rw [canonicalAll, List.flatMap_cons, List.flatMap_cons, ih node List.mem_cons_self,
          ih' fun node h => ih node (List.mem_cons_of_mem _ h)]
    rw [canonical, textChars_program, textChars_program, hbody]
  | number x =>
    have hnumber : x.canonical.textChars = x.textChars := by
      by_cases hnan : x.isNaN = true
      · have hcanonical : x.canonical.isNaN = true := by rw [Double.canonical_isNaN, hnan]
        rw [Double.textChars, Double.textChars, if_pos hnan, if_pos hcanonical]
      · rw [Double.canonical, if_neg hnan]
    exact congrArg (· ++ []) hnumber
  | null => rfl
  | identifier symbol => rfl
  | binary left operator right ihLeft ihRight =>
    rw [canonical, textChars_binary, textChars_binary, ihLeft, ihRight]
  | string value => rfl

theorem text_canonical (node : Node) : node.canonical.text = node.text :=
  congrArg String.ofList node.textChars_canonical

/-- A tree equals its canonical form unless some number in it is no number. -/
theorem eqv_canonical (node : Node) : node.canonical.eqv node = !node.hasNaN := by
  unfold eqv
  induction node using induction with
  | program body ih =>
    have hbody : agreeAll Double.eqv (canonicalAll body) body = !anyNaN body := by
      induction body with
      | nil => rfl
      | cons node nodes ih' =>
        rw [canonicalAll, agreeAll, anyNaN, ih node List.mem_cons_self,
          ih' fun node h => ih node (List.mem_cons_of_mem _ h), Bool.not_or]
    exact hbody
  | number x =>
    have hnumber : x.canonical.eqv x = !x.isNaN := by
      cases hnan : x.isNaN with
      | true => simp [Double.eqv, hnan]
      | false => simp [Double.canonical, Double.eqv, hnan]
    exact hnumber
  | null => rfl
  | identifier symbol => simp [canonical, agree, hasNaN]
  | binary left operator right ihLeft ihRight =>
    rw [canonical, agree, hasNaN, ihLeft, ihRight, Bool.not_or, beq_self_eq_true, Bool.and_true]
  | string value => simp [canonical, agree, hasNaN]

/-! ### Main results -/

/-- A tree of which no more than 127 brackets are open at once comes back identical, its numbers canonical; so
it is rendered as before, and equal to what was written unless some number is no number. -/
theorem json_round_trip (node : Node) :
    (maxOpen node.json ≤ 127 → load node.json = .ok node.canonical) ∧
    (maxOpen node.recordJson ≤ 127 → loadRecord node.kind node.recordJson = .ok node.canonical) ∧
    node.canonical.text = node.text ∧ (node.canonical.eqv node = true ↔ node.hasNaN = false) := by
  refine ⟨?_, ?_, node.text_canonical, ?_⟩
  · intro h
    rw [maxOpen_json] at h
    exact node.load_json.trans (within_of_le h _)
  · intro h
    rw [maxOpen_recordJson] at h
    exact node.loadRecord_recordJson.trans (within_of_le h _)
  · rw [eqv_canonical, Bool.not_eq_true']

/-- A program over what is no number, a string with a quote in it and a name outside ASCII. -/
def sample : Node :=
  .program [.number ⟨true, 0x7FF0000000000001, by decide⟩, .binary (.string "a\"b") "+" (.identifier "é")]

set_option maxRecDepth 4000 in
theorem sample_round_trip :
    maxOpen sample.json ≤ 127 ∧ maxOpen sample.recordJson ≤ 127 ∧
    load sample.json = .ok (.program [.number .nan, .binary (.string "a\"b") "+" (.identifier "é")]) ∧
    loadRecord .program sample.recordJson =
      .ok (.program [.number .nan, .binary (.string "a\"b") "+" (.identifier "é")]) := by
  have hdepth : sample.jsonDepth ≤ 127 := by decide
  have hopen : maxOpen sample.json ≤ 127 := sample.maxOpen_json.trans_le hdepth
  have hopen' : maxOpen sample.recordJson ≤ 127 := sample.maxOpen_recordJson.trans_le hdepth
  have hcanonical : sample.canonical =
      .program [.number .nan, .binary (.string "a\"b") "+" (.identifier "é")] := by decide
  rw [← hcanonical]
  exact ⟨hopen, hopen', (json_round_trip sample).1 hopen, (json_round_trip sample).2.1 hopen'⟩

/-- A tree is read back exactly if it is no deeper than 127 brackets, and otherwise the fault is its depth. No
text with 128 brackets open at once is a node. -/
theorem json_depth_limit (node : Node) :
    ((∃ node', load node.json = .ok node') ↔ node.jsonDepth ≤ 127) ∧
    (load node.json = .error .tooDeep ↔ 127 < node.jsonDepth) ∧
    ((∃ node', loadRecord node.kind node.recordJson = .ok node') ↔ node.jsonDepth ≤ 127) ∧
    (loadRecord node.kind node.recordJson = .error .tooDeep ↔ 127 < node.jsonDepth) ∧
    ∀ text, 128 ≤ maxOpen text → ∀ node', load text ≠ .ok node' := by
  rw [load_json, loadRecord_recordJson]
  refine ⟨within_eq_ok_iff _, within_eq_tooDeep_iff _, within_eq_ok_iff _, within_eq_tooDeep_iff _, ?_⟩
  intro text hdeep node' hload
  exact absurd (maxOpen_of_load hload) (Nat.not_le.mpr hdeep)

set_option maxRecDepth 4000 in
/-- A text of nothing but opening brackets is no node once there are 128 of them. -/
theorem load_brackets_ne_ok :
    128 ≤ maxOpen (String.ofList (List.replicate 128 '[')) ∧
    ∀ node', load (String.ofList (List.replicate 128 '[')) ≠ .ok node' := by
  have hdeep : 128 ≤ maxOpen (String.ofList (List.replicate 128 '[')) := by decide
  exact ⟨hdeep, (json_depth_limit .null).2.2.2.2 _ hdeep⟩

end Node

theorem Kind.load_text_name (k : Kind) : Kind.load (Value.string k.name).text = .ok k := by
  have hread : readKind ((Value.string k.name).spelling.write []) = leaving [] (.ok k) := by
    rw [← Node.tagMeaning_name k, ← readTag_write ends_nil]
    rfl
  rw [Value.text_eq_textIn]
  exact readAll_write (fun _ => rfl) hread

/-- Whatever text a tree, a record or a kind was loaded from, it is written in a form that loads as the same. -/
theorem json_of_load (text : String) :
    (∀ node, Node.load text = .ok node → Node.load node.json = .ok node) ∧
    (∀ k node, Node.loadRecord k text = .ok node →
      node.kind = k ∧ Node.loadRecord k node.recordJson = .ok node) ∧
    (∀ k, Kind.load text = .ok k → Kind.load (Value.string k.name).text = .ok k) := by
  refine ⟨?_, ?_, fun k _ => k.load_text_name⟩
  · intro node h
    obtain ⟨around, s, -, hmeaning⟩ := Node.load_eq_ok h
    obtain ⟨-, hdepth, hcanonical⟩ := Spelling.fits_of_nodeMeaning hmeaning
    rw [Node.load_json, within_of_le hdepth, hcanonical]
  · intro k node h
    obtain ⟨around, s, -, hmeaning⟩ := Node.loadRecord_eq_ok h
    obtain ⟨⟨hdepth, hcanonical⟩, rfl⟩ := Spelling.fits_of_recordMeaning hmeaning
    refine ⟨rfl, ?_⟩
    rw [Node.loadRecord_recordJson, within_of_le hdepth, hcanonical]

set_option maxRecDepth 4000 in
/-- A node in arrays with its tag behind, a record with a member to skip, and a kind as an object. -/
theorem json_of_load_spelled_otherwise :
    Node.load (Node.binary (.number (.ofInt 1)) "+" .null).json =
      .ok (.binary (.number (.ofInt 1)) "+" .null) ∧
    Node.loadRecord .program (Node.program []).recordJson = .ok (.program []) ∧
    Kind.load (Value.string Kind.program.name).text = .ok .program := by
  have hnode : Node.load
      "[\"BinaryExpression\",\x7b\"value\":1,\"kind\":\"NumericLiteral\"\x7d,[\"NullLiteral\"],\"+\"]" =
      .ok (.binary (.number (.ofInt 1)) "+" .null) := by decide +kernel
  have hrecord : Node.loadRecord .program "\x7b\"x\":[[]],\"body\":[]\x7d" = .ok (.program []) := by
    decide +kernel
  have hkind : Kind.load "\x7b\"Program\":null\x7d" = .ok .program := by decide +kernel
  exact ⟨(json_of_load _).1 _ hnode, ((json_of_load _).2.1 _ _ hrecord).2, (json_of_load _).2.2 _ hkind⟩

end SyntaxTree
