import Mathlib.Data.List.TakeWhile
import SyntaxTree.Proofs.CutValues
import SyntaxTree.Proofs.RoundTrip

/-!
The text of a tree with characters missing at its end, or with more of them behind it. What is missing is noticed
before any sense is made of what is there: the fault is that of a text that ends too early, wherever the text is cut.
What follows is noticed after all sense has been made, unless it is blank.
-/

namespace SyntaxTree

open Json

namespace Json

/-! ### Texts and numbers -/

theorem takes_readText (expected : Expected) (text : String) (bound : Nat) :
    Takes (readText expected) bound ((Value.string text).write []) text where
  whole := by
    intro rest hrest _
    have hread := readText_write (s := (Value.string text).spelling) expected hrest
    rw [Value.write_spelling, Value.write_append, Node.textMeaning_string, leaving_ok] at hread
    exact hread
  cut := by
    intro beginning hcut _
    rw [Value.write, ← write_spelledString] at hcut
    left
    rw [readText, readToken_cut_string text hcut]
    rfl

theorem takes_readTag (k : Kind) (bound : Nat) : Takes readTag bound ((Value.string k.name).write []) k where
  whole := by
    intro rest hrest hbound
    rw [readTag, (takes_readText .tag k.name bound).whole rest hrest hbound, ok_bind]
    dsimp only
    rw [Node.kindOfName_name]
    rfl
  cut := by
    intro beginning hcut hbound
    left
    rw [Value.write, ← write_spelledString] at hcut
    rw [readTag, readText, readToken_cut_string _ hcut]
    rfl

/-- A number that is not finite is a string, and one that is finite stays finite when it is cut off. -/
theorem takes_readDouble (x : Double) (bound room : Nat) :
    Takes (readDouble bound room) bound (x.toValue.write []) x.canonical where
  whole := by
    intro rest hrest hbound
    have hsize := x.toValue.spelling.size_add_length_le rest
    rw [← Value.write_append, ← Value.write_spelling] at hbound ⊢
    have hread : readDouble bound room (x.toValue.spelling.write rest) =
        leaving rest (x.toValue.spelling.contentMeaning room .number) :=
      readContent_write .number hrest (by omega)
    rw [hread, Node.contentMeaning_number, within_zero, leaving_ok]
  cut := by
    intro beginning hcut hbound
    by_cases hfinite : x.isFinite = true
    · rw [Double.toValue, if_pos hfinite, Value.write, ← x.write_spelling hfinite] at hcut
      rcases readToken_cut_number (isModest_spelling hfinite) hcut with hread | ⟨m, rfl, hm⟩
      · left
        rw [readDouble, readValue_of_token hread]
        rfl
      · right
        have hsize : (Spelling.number m).size < bound :=
          ((Spelling.number m).size_add_length_le []).trans_lt hbound
        have hread : readDouble bound room ((Spelling.number m).write []) =
            leaving [] (do numberOfValue (← m.parts.value)) := readContent_write .number ends_nil hsize
        rw [NumberText.numberOfValue_value m.wellFormed hm, leaving_ok] at hread
        exact ⟨_, hread⟩
    · rw [Double.toValue, if_neg hfinite, Value.write, ← write_spelledString] at hcut
      left
      rw [readDouble, readValue_of_token (readToken_cut_string _ hcut)]
      rfl

/-! ### Members of a node -/

theorem takes_readNodeMember_tag (k : Kind) (bound room : Nat) :
    Takes (readNodeMember bound room Node.tagName {}) bound (':' :: (Value.string k.name).write [])
      { tag? := some k } :=
  ((takes_readTag k bound).map fun k => ({ tag? := some k } : NodeParts)).colon (fun _ => rfl) rfl

theorem takes_readNodeMember_other {name : String} (hname : name ≠ Node.tagName) {v : Value} {room : Nat}
    (h : v.Fits room) (bound : Nat) (parts : NodeParts) :
    Takes (readNodeMember bound room name parts) bound (':' :: v.write [])
      { parts with members := (name, v) :: parts.members } := by
  have hcollect := (takes_collectMember (takes_readValue h bound) name parts.members).map
    fun members => ({ parts with members } : NodeParts)
  convert hcollect using 1
  funext cs
  rw [readNodeMember, if_neg hname]

theorem stepsOver_readNodeMember {members : List (String × Value)} {room : Nat}
    (hname : ∀ member ∈ members, member.1 ≠ Node.tagName) (hfits : ∀ member ∈ members, member.2.Fits room)
    (bound : Nat) (parts : NodeParts) :
    StepsOver (readNodeMember bound room) bound parts members
      { parts with members := members.reverse ++ parts.members } := by
  induction members generalizing parts with
  | nil => exact .nil parts
  | cons member members ih =>
    rw [List.reverse_cons, List.append_assoc]
    exact .cons (takes_readNodeMember_other (hname member List.mem_cons_self) (hfits member List.mem_cons_self) bound
      parts) (ih (fun member h => hname member (List.mem_cons_of_mem _ h))
        (fun member h => hfits member (List.mem_cons_of_mem _ h)) _)

end Json

namespace Node

/-! ### Nodes and records -/

/-- The members of a node fit inside its brackets. -/
theorem fits_members {node : Node} {room : Nat} (h : node.jsonDepth ≤ room + 1) :
    ∀ member ∈ node.members, member.2.Fits room := by
  have hfits : node.toRecord.Fits (room + 1) :=
    ⟨(depth_toRecord node).trans_le h, (isReadable_toValue node).2⟩
  exact Value.fits_object.mp hfits

theorem exists_inner {node : Node} {room : Nat} (h : node.jsonDepth ≤ room) : ∃ inner, room = inner + 1 := by
  have hdepth : node.toRecord.depth ≤ room := (depth_toRecord node).trans_le h
  exact exists_room hdepth

theorem readNode_cut {node : Node} {bound room : Nat} (h : node.jsonDepth ≤ room) {beginning : List Char}
    (hcut : Cut beginning (node.toValue.write [])) (hbound : beginning.length < bound) :
    readNode bound room beginning = .error .endOfText := by
  obtain ⟨inner, rfl⟩ := exists_inner h
  rw [toValue, tagged, Value.write] at hcut
  cases hcut with
  | before => rfl
  | @after _ beginning _ hcut =>
    have hshort : beginning.length < bound := (Nat.lt_succ_self _).trans hbound
    have hsteps := StepsOver.cons (takes_readNodeMember_tag node.kind bound inner)
      (stepsOver_readNodeMember (ne_tagName_of_mem_members node) (fits_members h) bound _)
    rw [readNode, readToken_openObject, ok_bind]
    dsimp only
    rw [enter, ok_bind, objectMembers_cut hsteps hcut hshort hshort]
    rfl

theorem takes_readNode {node : Node} {room : Nat} (h : node.jsonDepth ≤ room) (bound : Nat) :
    Takes (readNode bound room) bound (node.toValue.write []) node.canonical where
  whole := by
    intro rest hrest hbound
    have hsize := node.toValue.spelling.size_add_length_le rest
    rw [← Value.write_append, ← Value.write_spelling] at hbound ⊢
    rw [readNode_write hrest (by omega), nodeMeaning_toValue, within_of_le h, leaving_ok]
  cut := fun _ hcut hbound => .inl (readNode_cut h hcut hbound)

theorem jsonDepth_le_bodyDepth {body : List Node} {node : Node} (h : node ∈ body) :
    node.jsonDepth ≤ bodyDepth body := by
  induction body with
  | nil => cases h
  | cons head body ih =>
    rw [bodyDepth]
    rcases List.mem_cons.mp h with rfl | h
    · exact Nat.le_max_left _ _
    · exact (ih h).trans (Nat.le_max_right _ _)

theorem takes_readNodes {body : List Node} {room : Nat} (h : bodyDepth body + 1 ≤ room) (bound : Nat) :
    Takes (readNodes bound room) bound ((Value.array (valuesOf body)).write []) (canonicalAll body) where
  whole := by
    intro rest hrest hbound
    have hsize := (Value.array (valuesOf body)).spelling.size_add_length_le rest
    rw [← Value.write_append, ← Value.write_spelling] at hbound ⊢
    have hread : readNodes bound room ((Value.array (valuesOf body)).spelling.write rest) =
        leaving rest ((Value.array (valuesOf body)).spelling.contentMeaning room .nodes) :=
      readContent_write .nodes hrest (by omega)
    rw [hread, contentMeaning_nodes, within_of_le h, leaving_ok]
  cut := by
    intro beginning hcut hbound
    obtain ⟨inner, rfl⟩ := exists_room h
    left
    rw [Value.write] at hcut
    cases hcut with
    | before => rfl
    | @after _ beginning _ hcut =>
      have hshort : beginning.length < bound := (Nat.lt_succ_self _).trans hbound
      have hitems : ∀ item ∈ valuesOf body, ∃ node, Takes (readNode bound inner) bound (item.write []) node := by
        intro item hitem
        rw [valuesOf_eq_map] at hitem
        obtain ⟨node, hnode, rfl⟩ := List.mem_map.mp hitem
        have hdepth := (jsonDepth_le_bodyDepth hnode).trans (Nat.le_of_succ_le_succ h)
        exact ⟨node.canonical, takes_readNode hdepth bound⟩
      rw [readNodes, readToken_openArray, ok_bind]
      dsimp only
      rw [enter, ok_bind, elements_cut hitems hcut hshort hshort]
      rfl

theorem takes_readField {draft : Draft} {name : String} (place : Place) {fill : place.Content → Draft}
    (hslot : draft.slot name = .vacant place fill) {bound room : Nat} {text : List Char} {content : place.Content}
    (h : Takes (readContent bound room place) bound text content) :
    Takes (readField bound room name draft) bound (':' :: text) (fill content) := by
  apply (h.map fill).colon
  · intro cs
    rw [readField, hslot]
    rfl
  · rw [readField, hslot]
    rfl

/-- The fields of a node fill in a record of its kind one after the other. -/
theorem stepsOver_readField {node : Node} {room : Nat} (h : node.jsonDepth ≤ room + 1) (bound : Nat) :
    ∃ draft, StepsOver (readField bound room) bound (.blank node.kind) node.members draft := by
  cases node with
  | program body =>
    have hbody : bodyDepth body + 1 ≤ room := Nat.le_of_succ_le_succ h
    exact ⟨_, .cons (takes_readField .nodes rfl (takes_readNodes hbody bound)) (.nil _)⟩
  | number x => exact ⟨_, .cons (takes_readField .number rfl (takes_readDouble x bound room)) (.nil _)⟩
  | null => exact ⟨_, .nil _⟩
  | identifier symbol =>
    exact ⟨_, .cons (takes_readField .text rfl (takes_readText .text symbol bound)) (.nil _)⟩
  | binary left operator right =>
    have hoperands : max left.jsonDepth right.jsonDepth ≤ room := Nat.le_of_succ_le_succ h
    obtain ⟨hleft, hright⟩ := Nat.max_le.mp hoperands
    exact ⟨_, .cons (takes_readField .node rfl (takes_readNode hleft bound))
      (.cons (takes_readField .node rfl (takes_readNode hright bound))
        (.cons (takes_readField .text rfl (takes_readText .text operator bound)) (.nil _)))⟩
  | string value =>
    exact ⟨_, .cons (takes_readField .text rfl (takes_readText .text value bound)) (.nil _)⟩

theorem readRecord_cut {node : Node} {bound room : Nat} (h : node.jsonDepth ≤ room) {beginning : List Char}
    (hcut : Cut beginning (node.toRecord.write [])) (hbound : beginning.length < bound) :
    readRecord node.kind bound room beginning = .error .endOfText := by
  obtain ⟨inner, rfl⟩ := exists_inner h
  rw [toRecord, Value.write] at hcut
  cases hcut with
  | before => rfl
  | @after _ beginning _ hcut =>
    have hshort : beginning.length < bound := (Nat.lt_succ_self _).trans hbound
    obtain ⟨draft, hsteps⟩ := stepsOver_readField h bound
    rw [readRecord, readToken_openObject, ok_bind]
    dsimp only
    rw [enter, ok_bind, objectMembers_cut hsteps hcut hshort hshort]
    rfl

/-! ### Main result -/

/-- A text that is cut off has an end that is missing. -/
theorem cut_of_append {text beginning missing : String} (h : text = beginning ++ missing) (hne : missing ≠ "") :
    Cut beginning.toList text.toList := by
  have hmissing : missing.toList ≠ [] := fun hnil => hne (String.toList_injective hnil)
  rw [h, String.toList_append]
  exact cut_append_of_ne_nil _ hmissing

/-- What may follow a text that was read in full. -/
theorem readAll_of_leaving {α : Type} {read : Reader α} {text : List Char} {a : α} (further : List Char)
    (h : read (text ++ further) = .ok (a, further)) :
    readAll read (text ++ further) = if further.all isBlank then .ok a else .error .malformed := by
  have hblanks : skipBlanks further = [] ↔ further.all isBlank = true := by
    rw [skipBlanks, List.dropWhile_eq_nil_iff, List.all_eq_true]
  rw [readAll, h, ok_bind]
  dsimp only
  split
  · rename_i hnil
    rw [if_pos (hblanks.mp hnil)]
  · rename_i c cs hcons
    rw [if_neg fun hall => by rw [hblanks.mpr hall] at hcons; cases hcons]

theorem toList_text_append (v : Value) (further : String) :
    (v.text ++ further).toList = v.spelling.write further.toList := by
  rw [String.toList_append, Value.text, String.toList_ofList, v.write_spelling, ← v.write_append]

/-- The text of an object is read in full whatever follows it. -/
theorem readAll_text_append {α : Type} (read : Nat → Reader α) {v : Value} {a : α} (further : String)
    (h : ∀ bound, v.spelling.size < bound →
      read bound (v.spelling.write further.toList) = .ok (a, further.toList)) :
    readAll (read (bound (v.text ++ further))) (v.text ++ further).toList =
      if further.toList.all isBlank then .ok a else .error .malformed := by
  have hsize := v.spelling.size_add_length_le further.toList
  have hbound : v.spelling.size < bound (v.text ++ further) := by
    rw [bound, toList_text_append]
    omega
  have hread := h _ hbound
  rw [v.write_spelling, v.write_append] at hread
  rw [toList_text_append, v.write_spelling, v.write_append]
  exact readAll_of_leaving _ hread

theorem load_append {node : Node} (h : node.jsonDepth ≤ maxDepth) (further : String) :
    load (node.json ++ further) =
      if further.toList.all isBlank then .ok node.canonical else .error .malformed := by
  apply readAll_text_append fun bound => readNode bound maxDepth
  intro bound hbound
  have hmeaning := nodeMeaning_toValue node maxDepth
  rw [toValue, tagged, Value.spelling, Spelling.size] at hbound
  rw [toValue, tagged, Value.spelling] at hmeaning ⊢
  rw [readNode_write_object _ _ (by omega), hmeaning, within_of_le h, leaving_ok]

theorem loadRecord_append {node : Node} (h : node.jsonDepth ≤ maxDepth) (further : String) :
    loadRecord node.kind (node.recordJson ++ further) =
      if further.toList.all isBlank then .ok node.canonical else .error .malformed := by
  apply readAll_text_append fun bound => readRecord node.kind bound maxDepth
  intro bound hbound
  have hmeaning := recordMeaning_toRecord node maxDepth
  rw [toRecord, Value.spelling, Spelling.size] at hbound
  rw [toRecord, Value.spelling] at hmeaning ⊢
  rw [readRecord_write_object _ _ _ (by omega), hmeaning, within_of_le h, leaving_ok]

/-- A text that a tree or a record is written as fails for its missing end wherever it is cut, and reads as before
with blanks behind it, which nothing else may be. -/
theorem json_cut_or_extended (node : Node) (hdepth : node.jsonDepth ≤ 127) :
    (∀ beginning missing, node.json = beginning ++ missing → missing ≠ "" →
      load beginning = .error .endOfText) ∧
    (∀ beginning missing, node.recordJson = beginning ++ missing → missing ≠ "" →
      loadRecord node.kind beginning = .error .endOfText) ∧
    ∀ further : String,
      load (node.json ++ further) =
        (if further.toList.all isBlank then .ok node.canonical else .error .malformed) ∧
      loadRecord node.kind (node.recordJson ++ further) =
        if further.toList.all isBlank then .ok node.canonical else .error .malformed := by
  refine ⟨?_, ?_, fun further => ⟨load_append hdepth further, loadRecord_append hdepth further⟩⟩
  · intro beginning missing htext hne
    have hcut := cut_of_append htext hne
    rw [json, Value.text, String.toList_ofList] at hcut
    have hread : readNode (bound beginning) maxDepth beginning.toList = .error .endOfText :=
      readNode_cut hdepth hcut (Nat.lt_succ_self _)
    rw [load, readAll, hread]
    rfl
  · intro beginning missing htext hne
    have hcut := cut_of_append htext hne
    rw [recordJson, Value.text, String.toList_ofList] at hcut
    have hread : readRecord node.kind (bound beginning) maxDepth beginning.toList = .error .endOfText :=
      readRecord_cut hdepth hcut (Nat.lt_succ_self _)
    rw [loadRecord, readAll, hread]
    rfl

/-- A cut inside a number, a cut inside an escape, and a second text behind the first one. -/
theorem number_cut_or_extended :
    (number (.ofInt 12)).jsonDepth ≤ 127 ∧ (string "\n").jsonDepth ≤ 127 ∧
    load "\x7b\"kind\":\"NumericLiteral\",\"value\":1" = .error .endOfText ∧
    loadRecord .stringLiteral "\x7b\"value\":\"\\" = .error .endOfText ∧
    load ((number (.ofInt 12)).json ++ "\n") = .ok (number (.ofInt 12)) ∧
    load ((number (.ofInt 12)).json ++ "\x7b\x7d") = .error .malformed := by
  have hnumber : (number (.ofInt 12)).jsonDepth ≤ 127 := by decide
  have hstring : (string "\n").jsonDepth ≤ 127 := by decide
  have hcutNumber : (number (.ofInt 12)).json =
      "\x7b\"kind\":\"NumericLiteral\",\"value\":1" ++ "2.0\x7d" := by decide +kernel
  have hcutString : (string "\n").recordJson = "\x7b\"value\":\"\\" ++ "n\"\x7d" := by decide +kernel
  have hcanonical : (number (.ofInt 12)).canonical = number (.ofInt 12) := by decide +kernel
  have hfurther := (json_cut_or_extended _ hnumber).2.2
  rw [hcanonical] at hfurther
  exact ⟨hnumber, hstring, (json_cut_or_extended _ hnumber).1 _ _ hcutNumber (by decide),
    (json_cut_or_extended _ hstring).2.1 _ _ hcutString (by decide),
    (hfurther "\n").1.trans (if_pos (by decide)), (hfurther "\x7b\x7d").1.trans (if_neg (by decide))⟩

end Node

end SyntaxTree
