import SyntaxTree.Proofs.Holes
import SyntaxTree.Proofs.RoundTrip

/-!
One text in several places. A node may stand on its own, in a record that is read straight from the text, or in
a node whose members are kept as values before sense is made of them. In all of these places the same texts
stand for the same nodes, except for those whose tag is the index of a kind: these are nodes where they are
kept, and nowhere else.
-/

namespace SyntaxTree

open Json

/-- Where a node is loaded: on its own, in a record, or in a node. -/
inductive Site where
  | alone
  | record (hole : Hole) (around : Around) (frame : Frame hole 0)
  | node (hole : Hole) (around : Around) (frame : Frame hole 1)

namespace Site

/-- The node in its place, if the text loads with a node that is spelled so. -/
def outcome : Site → Spelling → Option Node
  | alone, s => (Node.load (s.textIn {})).toOption
  | record hole around frame, s =>
    (Node.loadRecord hole.kind ((frame.fill s).textIn around)).toOption.bind hole.node?
  | node hole around frame, s => (Node.load ((frame.fill s).textIn around)).toOption.bind hole.node?

/-- Whether what is loaded is kept as a value first. -/
def isKept : Site → Bool
  | node _ _ _ => true
  | _ => false

/-- All that stands around the place is valid: some node loads there. -/
def IsOpen (site : Site) : Prop := ∃ s inner, site.outcome s = some inner

theorem outcome_record {hole : Hole} (around : Around) (frame : Frame hole 0) (s : Spelling) :
    (record hole around frame).outcome s =
      ((frame.fill s).recordMeaning hole.kind 127).toOption.bind hole.node? := by
  rw [outcome, Node.loadRecord_textIn]
  rfl

theorem outcome_node {hole : Hole} (around : Around) (frame : Frame hole 1) (s : Spelling) :
    (node hole around frame).outcome s = if (frame.fill s).hasNumberTag then none else
      ((frame.fill s).keptMeaning 127).toOption.bind hole.node? := by
  rw [outcome, Node.load_textIn, maxDepth, Spelling.toOption_nodeMeaning]
  split <;> rfl

/-- A text with room to spare has as much use of the room in a hole as on its own. -/
theorem keptMeaning_room (hole : Hole) {s : Spelling} (hdepth : s.depth ≤ 120) :
    s.keptMeaning hole.room = s.keptMeaning 127 := by
  apply Spelling.keptMeaning_of_depth_le _ (by omega)
  cases hole with
  | statement blanks around => exact hdepth.trans (show 120 ≤ 125 by decide)
  | left => exact hdepth.trans (show 120 ≤ 126 by decide)

theorem outcome_record_eq {hole : Hole} {around : Around} {frame : Frame hole 0}
    (hopen : (record hole around frame).IsOpen) {s : Spelling} (hdepth : s.depth ≤ 120) :
    (record hole around frame).outcome s = (s.nodeMeaning 127).toOption := by
  have hopen' : ∃ s inner,
      ((frame.fill s).recordMeaning hole.kind 127).toOption.bind hole.node? = some inner := by
    obtain ⟨s₀, inner₀, h₀⟩ := hopen
    exact ⟨s₀, inner₀, (outcome_record around frame s₀).symm.trans h₀⟩
  rw [outcome_record]
  refine (frame.exchanges_recordMeaning.node?_eq hopen' s).trans ?_
  rw [Spelling.toOption_nodeMeaning, keptMeaning_room hole hdepth, ← Spelling.toOption_nodeMeaning]

theorem outcome_node_eq {hole : Hole} {around : Around} {frame : Frame hole 1}
    (hopen : (node hole around frame).IsOpen) {s : Spelling} (hdepth : s.depth ≤ 120) :
    (node hole around frame).outcome s = (s.keptMeaning 127).toOption := by
  obtain ⟨s₀, inner₀, h₀⟩ := hopen
  rw [outcome_node] at h₀
  by_cases hnumber : (frame.fill s₀).hasNumberTag = true
  · rw [if_pos hnumber] at h₀
    cases h₀
  · rw [if_neg hnumber] at h₀
    obtain ⟨tree₀, htree₀, -⟩ := Option.bind_eq_some_iff.mp h₀
    rw [toOption_eq_some] at htree₀
    rw [outcome_node, frame.hasNumberTag_fill s s₀, if_neg hnumber]
    refine ((frame.exchanges_keptMeaning htree₀).node?_eq ⟨s₀, inner₀, h₀⟩ s).trans ?_
    rw [keptMeaning_room hole hdepth]

/-- In an open place a node is read straight from the text, or made of its value. -/
theorem outcome_eq {site : Site} (hopen : site.IsOpen) {s : Spelling} (hdepth : s.depth ≤ 120) :
    site.outcome s = if site.isKept then (s.keptMeaning 127).toOption else (s.nodeMeaning 127).toOption := by
  cases site with
  | alone =>
    rw [outcome, Node.load_textIn]
    rfl
  | record hole around frame => exact outcome_record_eq hopen hdepth
  | node hole around frame => exact outcome_node_eq hopen hdepth

theorem isOpen_alone : alone.IsOpen := by
  refine ⟨Node.null.toValue.spelling, .null, ?_⟩
  have hload : Node.load (Node.null.toValue.spelling.textIn {}) = .ok .null := by
    rw [← Node.json_eq_textIn, Node.load_json]
    rfl
  rw [outcome, hload]
  rfl

/-- A program over one statement, a node itself, written without blanks. -/
def statementFrame : Frame (.statement {} {}) 1 :=
  .members {} [({ name := spelledString Node.tagName }, (Value.string Kind.program.name).spelling)]
    { name := spelledString "body" } (meaning_spelledString "body") []

def statement : Site := .node (.statement {} {}) {} statementFrame

theorem isOpen_statement : statement.IsOpen := by
  refine ⟨Node.null.toValue.spelling, .null, ?_⟩
  have hfill : statementFrame.fill Node.null.toValue.spelling = (Node.program [.null]).toValue.spelling := rfl
  have hload : Node.load ((Node.program [.null]).toValue.spelling.textIn {}) = .ok (.program [.null]) := by
    rw [← Node.json_eq_textIn, Node.load_json]
    rfl
  rw [statement, outcome, hfill, hload]
  rfl

/-- A text with room to spare is the same node in all open places, or a node in none of them, unless its tag is
a number and its value makes sense: then it is a node only where its value is kept. -/
theorem outcomes_agree_iff (s : Spelling) (h : maxOpen (s.textIn {}) ≤ 120) :
    (∀ site : Site, site.IsOpen → site.outcome s =
      if s.hasNumberTag && !site.isKept then none
      else (do Node.ofValue (← Value.load 127 (s.textIn {}))).toOption) ∧
    ((∀ site site' : Site, site.IsOpen → site'.IsOpen → site.outcome s = site'.outcome s) ↔
      ¬(s.hasNumberTag = true ∧ ∃ node, (do Node.ofValue (← Value.load 127 (s.textIn {}))) = .ok node)) := by
  rw [maxOpen_textIn] at h
  have hvalue : (do Node.ofValue (← Value.load 127 (s.textIn {}))) = s.keptMeaning 127 := by
    rw [Value.load_textIn, Spelling.keptMeaning]
  have houtcome : ∀ site : Site, site.IsOpen → site.outcome s =
      if s.hasNumberTag && !site.isKept then none else (s.keptMeaning 127).toOption := by
    intro site hopen
    rw [outcome_eq hopen h, Spelling.toOption_nodeMeaning]
    cases s.hasNumberTag <;> cases site.isKept <;> rfl
  rw [hvalue]
  refine ⟨houtcome, ?_⟩
  constructor
  · rintro hagree ⟨hnumber, node, hnode⟩
    have hdiffer := hagree alone statement isOpen_alone isOpen_statement
    rw [houtcome alone isOpen_alone, houtcome statement isOpen_statement, hnumber, hnode] at hdiffer
    cases hdiffer
  · intro hagree site site' hopen hopen'
    rw [houtcome site hopen, houtcome site' hopen']
    by_cases hnumber : s.hasNumberTag = true
    · have hnone : (s.keptMeaning 127).toOption = none := by
        cases hkept : s.keptMeaning 127 with
        | error fault => rfl
        | ok node => exact absurd ⟨hnumber, node, hkept⟩ hagree
      rw [hnone, ite_self, ite_self]
    · rw [Bool.not_eq_true] at hnumber
      rw [hnumber]
      rfl

/-- An object whose only member is a tag, the index of the kind of null. -/
def indexTagged : Spelling := (Value.object [("kind", .integer 2)]).spelling

/-- It is the statement of a program that is a node itself, and no node on its own. -/
theorem outcomes_indexTagged :
    indexTagged.textIn {} = "\x7b\"kind\":2\x7d" ∧ maxOpen (indexTagged.textIn {}) ≤ 120 ∧
    (statementFrame.fill indexTagged).textIn {} = "\x7b\"kind\":\"Program\",\"body\":[\x7b\"kind\":2\x7d]\x7d" ∧
    alone.IsOpen ∧ alone.outcome indexTagged = none ∧
    statement.IsOpen ∧ statement.outcome indexTagged = some .null := by
  have hopen : maxOpen (indexTagged.textIn {}) ≤ 120 := by
    rw [maxOpen_textIn]
    decide
  have hnumber : indexTagged.hasNumberTag = true := by decide
  have hreadable : (Value.object [("kind", .integer 2)]).IsReadable := ⟨⟨by decide, by decide⟩, trivial⟩
  have hvalue : (do Node.ofValue (← Value.load 127 (indexTagged.textIn {}))) = .ok .null := by
    rw [Value.load_textIn, indexTagged, Value.meaning_spelling _ hreadable]
    rfl
  have halone := (outcomes_agree_iff indexTagged hopen).1 alone isOpen_alone
  have hstatement := (outcomes_agree_iff indexTagged hopen).1 statement isOpen_statement
  rw [hnumber, hvalue] at halone hstatement
  have htext : indexTagged.textIn {} = "\x7b\"kind\":2\x7d" := by
    rw [indexTagged, ← Value.text_eq_textIn]
    decide
  have hfill : statementFrame.fill indexTagged =
      (Node.tagged .program [("body", .array [.object [("kind", .integer 2)]])]).spelling := rfl
  refine ⟨htext, hopen, ?_, isOpen_alone, halone, isOpen_statement, hstatement⟩
  rw [hfill, ← Value.text_eq_textIn]
  decide

end Site

end SyntaxTree
