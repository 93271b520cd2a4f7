import SyntaxTree.Proofs.Holes
import SyntaxTree.Proofs.MemberOrder

/-!
Members of a record that are no fields. The text of a record is read field by field, and any other member is skipped
for its grammar alone: its value may nest deeper than a value that is read, hold numbers that are too large and half
a surrogate pair. Such a member changes nothing, wherever it stands among the members of the record.
-/

namespace SyntaxTree

open Json

namespace Json.Spelling

/-- The members of a record leave it a record of its kind. -/
theorem kind_foldMembers {room : Nat} {draft draft' : Draft} {members : List (Label × Spelling)}
    (h : foldMembers (addField room) draft members = .ok draft') : draft'.kind = draft.kind := by
  have hstep : ∀ member ∈ members, ∀ name start next, start.kind = draft.kind →
      member.2.addField room start name = .ok next → next.kind = draft.kind ∧ True := by
    intro member _ name start next hkind hadd
    exact ⟨(Draft.kind_fillWith hadd).trans hkind, trivial⟩
  exact (foldMembers_eq_ok (I := fun start => start.kind = draft.kind) (P := fun _ => True) hstep rfl h).1

/-- A member that is no field may be left out, whether the others make a record or not. -/
theorem recordMeaning_further {k : Kind} {label : Label} {name : String} (named : label.name.meaning = .ok name)
    (hname : name ∉ k.fields) (room : Nat) (blanks : Blanks) (before after : List (Label × Spelling)) (s : Spelling) :
    (object blanks (before ++ (label, s) :: after)).recordMeaning k (room + 1) =
      (object blanks (before ++ after)).recordMeaning k (room + 1) := by
  have hwithout : (object blanks (before ++ after)).recordMeaning k (room + 1) = (do
      let draft ← foldMembers (addField room) (.blank k) before
      let last ← foldMembers (addField room) draft after
      last.finish) := by
    rw [recordMeaning, enter, ok_bind, foldMembers, List.foldlM_append, bind_assoc]
    rfl
  rw [recordMeaning_member named, hwithout]
  cases hdraft : foldMembers (addField room) (.blank k) before with
  | error fault => rfl
  | ok draft =>
    have hkind : draft.kind = k := (kind_foldMembers hdraft).trans (Draft.kind_blank k)
    have hslot : draft.slot name = .unknown := Draft.slot_eq_unknown_iff.mpr (by rwa [hkind])
    rw [ok_bind, ok_bind, Draft.fillWith_unknown hslot, ok_bind]

end Json.Spelling

namespace Node

def opensObject (text : String) : Bool := (skipBlanks text.toList).head? == some '{'

theorem opensObject_textIn (around : Around) (s : Spelling) :
    opensObject (s.textIn around) = ((s.write around.after.chars).head? == some '{') := by
  obtain ⟨c, cs, hwrite, hblank, -⟩ := s.write_eq_cons around.after.chars
  rw [opensObject, Spelling.textIn, String.toList_ofList, skipBlanks_append, hwrite, skipBlanks_cons hblank]

/-- A text that opens with an object and loads as a record is the text of an object. -/
theorem exists_object_of_loadRecord {k : Kind} {text : String} {node : Node} (h : loadRecord k text = .ok node)
    (hobject : opensObject text = true) :
    ∃ around blanks members, text = (Spelling.object blanks members).textIn around := by
  obtain ⟨around, s, rfl, hs⟩ := loadRecord_eq_ok h
  rcases s.scalar_or_brackets with hscalar | ⟨blanks, items, rfl⟩ | ⟨blanks, members, rfl⟩
  · rw [Spelling.recordMeaning_of_isScalar hscalar] at hs
    obtain ⟨v, -, hs⟩ := bind_eq_ok.mp hs
    cases hs
  · rw [opensObject_textIn] at hobject
    cases hobject
  · exact ⟨around, blanks, members, rfl⟩

/-- A text in the form of an object that loads as a record of a kind loads as the same record with a further member
anywhere among its members, if the name of that member is no field of the kind; its value may be any JSON text. -/
theorem loadRecord_further (k : Kind) {text : String} {node : Node} (h : loadRecord k text = .ok node)
    (hobject : opensObject text = true) :
    (∃ around blanks members, text = (Spelling.object blanks members).textIn around) ∧
    ∀ around blanks before after, text = (Spelling.object blanks (before ++ after)).textIn around →
      ∀ (label : Label) (name : String), label.name.meaning = .ok name → name ∉ k.fields → ∀ s : Spelling,
        loadRecord k ((Spelling.object blanks (before ++ (label, s) :: after)).textIn around) = .ok node := by
  refine ⟨exists_object_of_loadRecord h hobject, ?_⟩
  intro around blanks before after htext label name named hname s
  have hfurther : (Spelling.object blanks (before ++ (label, s) :: after)).recordMeaning k maxDepth =
      (Spelling.object blanks (before ++ after)).recordMeaning k maxDepth :=
    Spelling.recordMeaning_further named hname 126 blanks before after s
  rw [loadRecord_textIn, hfurther, ← loadRecord_textIn, ← htext, h]

/-- Arrays inside each other, around a number that is too large and half a surrogate pair. -/
def nestedArrays : Nat → Spelling
  | 0 => .array {} [
    ({}, .number (.ofText { negative := false, whole := ['1'], exponent := some (false, ['9', '9', '9']) } false
      ⟨by simp [IsDigits], by simp, by simp, by simp [IsDigits]⟩)),
    ({}, .string ⟨[.unit 'd' '8' '0' '0' 0xD800 rfl]⟩)]
  | depth + 1 => .array {} [({}, nestedArrays depth)]

def spelledSymbol : Label × Spelling := ({ name := spelledString "symbol" }, .string (spelledString "x"))

theorem loadRecord_further_tag :
    loadRecord .identifier "\x7b\"symbol\":\"x\"\x7d" = .ok (identifier "x") ∧
    opensObject "\x7b\"symbol\":\"x\"\x7d" = true ∧
    "\x7b\"symbol\":\"x\"\x7d" = (Spelling.object {} ([] ++ [spelledSymbol])).textIn {} ∧
    (spelledString "kind").meaning = .ok "kind" ∧ "kind" ∉ Kind.identifier.fields ∧
    (Spelling.object {} ([] ++ ({ name := spelledString "kind" }, nestedArrays 1) :: [spelledSymbol])).textIn {} =
      "\x7b\"kind\":[[1e999,\"\\ud800\"]],\"symbol\":\"x\"\x7d" ∧
    loadRecord .identifier ((Spelling.object {} ([] ++
      ({ name := spelledString "kind" }, nestedArrays 200) :: [spelledSymbol])).textIn {}) = .ok (identifier "x") := by
  have hload : loadRecord .identifier "\x7b\"symbol\":\"x\"\x7d" = .ok (identifier "x") := by decide +kernel
  have hobject : opensObject "\x7b\"symbol\":\"x\"\x7d" = true := by decide +kernel
  have htext : "\x7b\"symbol\":\"x\"\x7d" = (Spelling.object {} ([] ++ [spelledSymbol])).textIn {} := by
    decide +kernel
  have hname : (spelledString "kind").meaning = .ok "kind" := meaning_spelledString "kind"
  exact ⟨hload, hobject, htext, hname, by decide, by decide +kernel,
    (loadRecord_further .identifier hload hobject).2 {} {} [] [spelledSymbol] htext { name := spelledString "kind" }
      "kind" hname (by decide) (nestedArrays 200)⟩

end Node

end SyntaxTree
