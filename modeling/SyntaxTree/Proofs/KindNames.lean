import SyntaxTree.NodeError
import SyntaxTree.Proofs.MemberOrder
import SyntaxTree.Proofs.Tags
import SyntaxTree.Proofs.ValueSpelling

/-!
Names of kinds, wherever they are read. A kind is found by its name among all kinds, as a JSON string of its own and
as the tag of a node; all three take the same names for the same kinds. A name that is none is refused as soon as it is
read: alone it is the whole text, and at the front of a node nothing behind it is looked at.
-/

namespace SyntaxTree

open Json

/-! ### Names -/

theorem Kind.parse_eq_ok_iff {name : String} {k : Kind} : Kind.parse name = .ok k ↔ name = k.name := by
  rw [eq_comm (a := name), ← Kind.ofName?_eq_some_iff, Kind.parse]
  cases Kind.ofName? name <;> simp

theorem Kind.parse_eq_error_iff {name : String} {error : NodeError} :
    Kind.parse name = .error error ↔ Kind.ofName? name = none ∧ error = .unknownKind name := by
  rw [Kind.parse]
  cases Kind.ofName? name <;> simp [eq_comm]

theorem Json.kindOfName_eq_ok_iff {name : String} {k : Kind} : kindOfName name = .ok k ↔ name = k.name := by
  rw [eq_comm (a := name), ← Kind.ofName?_eq_some_iff, kindOfName]
  cases Kind.ofName? name <;> simp

theorem Json.kindOfName_of_ofName?_eq_none {name : String} (h : Kind.ofName? name = none) :
    kindOfName name = .error (.content (.unknownTag name)) := by
  rw [kindOfName, h]

/-! ### Strings -/

/-- A JSON text that is a string, in any spelling. -/
def Json.IsStringText (value text : String) : Prop :=
  ∃ (around : Around) (string : StringSpelling), string.meaning = .ok value ∧
    text = (Spelling.string string).textIn around

theorem Json.isStringText_text (value : String) : IsStringText value (Value.string value).text :=
  ⟨{}, spelledString value, meaning_spelledString value, Value.text_eq_textIn _⟩

theorem Json.readKind_blanks (blanks : Blanks) (cs : List Char) : readKind (blanks.chars ++ cs) = readKind cs := by
  rw [readKind, readKind, skipBlanks_append]

/-- A string is read as a kind just as it is read as a tag. -/
theorem Kind.load_of_isStringText {name text : String} (h : IsStringText name text) :
    Kind.load text = kindOfName name := by
  obtain ⟨around, string, hmeaning, rfl⟩ := h
  have hread : readKind ((Spelling.string string).write around.after.chars) =
      leaving around.after.chars (kindOfName name) := by
    have htag : (Spelling.string string).tagMeaning = kindOfName name := by
      rw [Spelling.tagMeaning_string, hmeaning, ok_bind]
    rw [← htag, ← readTag_write (ends_blanks_nil around.after)]
    rfl
  exact readAll_write (readKind_blanks around.before) hread

/-! ### Tags -/

theorem Json.readTag_string (string : StringSpelling) (rest : List Char) :
    readTag (string.write rest) = leaving rest (do kindOfName (← string.meaning)) := by
  rw [readTag, readText, readToken_string]
  cases string.meaning <;> rfl

theorem Json.Spelling.mem_of_membersMeaning {room : Nat} {members : List (Label × Spelling)}
    {values : List (String × Value)} {label : Label} {s : Spelling} {name : String} {v : Value}
    (h : membersMeaning room members = .ok values) (hmember : (label, s) ∈ members)
    (hname : label.name.meaning = .ok name) (hv : s.meaning room = .ok v) : (name, v) ∈ values := by
  induction members generalizing values with
  | nil => cases hmember
  | cons member members ih =>
    obtain ⟨name', hname', v', hv', values', hvalues, rfl⟩ := (membersMeaning_cons ..).mp h
    rcases List.mem_cons.mp hmember with rfl | hmember
    · rw [hname] at hname'
      rw [hv] at hv'
      cases hname'
      cases hv'
      exact List.mem_cons_self
    · exact List.mem_cons_of_mem _ (ih hvalues hmember)

namespace Node

/-- A JSON text that is an object with a string among its tags, in any spelling. -/
def IsTaggedText (tag text : String) : Prop :=
  ∃ (around : Around) (blanks : Blanks) (members : List (Label × Spelling)) (label : Label)
      (string : StringSpelling),
    label.name.meaning = .ok tagName ∧ string.meaning = .ok tag ∧ (label, .string string) ∈ members ∧
      text = (Spelling.object blanks members).textIn around

/-- A text that opens an object with a string as its tag in front, in any spelling. All that follows is left open. -/
def OpensWithTag (tag text : String) : Prop :=
  ∃ (before inside : Blanks) (label : Label) (string : StringSpelling) (rest : List Char),
    label.name.meaning = .ok tagName ∧ string.meaning = .ok tag ∧
      text = String.ofList (before.chars ++ '{' :: (inside.chars ++
        label.name.write (label.writeValue (.string string) rest)))

/-- The tag that is found among members is that of every member that is one, and of those before. -/
theorem tag_of_tagOfMembers {tag? : Option Kind} {members : List (String × Value)} {k : Kind}
    (h : tagOfMembers tag? members = .ok k) :
    (∀ k' ∈ tag?, k' = k) ∧ ∀ tag, (tagName, tag) ∈ members → kindOfValue tag = .ok k := by
  induction members generalizing tag? with
  | nil =>
    cases tag? with
    | none => cases h
    | some k' =>
      cases h
      simp
  | cons member members ih =>
    obtain ⟨name, v⟩ := member
    rw [tagOfMembers] at h
    by_cases hname : name = tagName
    · rw [if_pos hname] at h
      cases tag? with
      | some k' => cases h
      | none =>
        obtain ⟨k', hk, h⟩ := bind_eq_ok.mp h
        obtain ⟨hfirst, hothers⟩ := ih h
        rw [hfirst k' rfl] at hk
        refine ⟨by simp, fun tag htag => ?_⟩
        rcases List.mem_cons.mp htag with heq | htag
        · cases heq
          exact hk
        · exact hothers tag htag
    · rw [if_neg hname] at h
      obtain ⟨hbefore, hothers⟩ := ih h
      refine ⟨hbefore, fun tag htag => ?_⟩
      rcases List.mem_cons.mp htag with heq | htag
      · cases heq
        exact absurd rfl hname
      · exact hothers tag htag

theorem kind_of_ofMembers {k : Kind} {members : List (String × Value)} {node : Node}
    (h : ofMembers k members = .ok node) : node.kind = k := by
  obtain ⟨draft, hdraft, h⟩ := bind_eq_ok.mp h
  rw [Draft.kind_finish h, kind_fillMembers hdraft, Draft.kind_blank]

/-- The tag of a text that loads is the name of the kind of what it loads as. -/
theorem tag_of_load {tag text : String} (htag : IsTaggedText tag text) {node : Node} (h : load text = .ok node) :
    tag = node.kind.name := by
  obtain ⟨around, blanks, members, label, string, hname, hmeaning, hmember, rfl⟩ := htag
  rw [load_textIn] at h
  obtain ⟨-, v, hv, hnode⟩ := Spelling.nodeMeaning_eq_ok_iff.mp h
  obtain ⟨room, -, hv⟩ := bind_eq_ok.mp ((Spelling.meaning_object ..).symm.trans hv)
  obtain ⟨values, hvalues, hv⟩ := bind_eq_ok.mp hv
  cases hv
  rw [ofValue_object] at hnode
  obtain ⟨k, hk, hnode⟩ := bind_eq_ok.mp hnode
  have hstring : (Spelling.string string).meaning room = .ok (.string tag) := by
    rw [Spelling.meaning, hmeaning, ok_bind]
  have hvalue : (tagName, .string tag) ∈ values := Spelling.mem_of_membersMeaning hvalues hmember hname hstring
  have hkind : kindOfName tag = .ok k := (tag_of_tagOfMembers hk).2 _ hvalue
  rw [kind_of_ofMembers hnode]
  exact kindOfName_eq_ok_iff.mp hkind

/-- A tag is judged before anything behind it is read. -/
theorem readNode_of_tag {label : Label} {string : StringSpelling} {tag : String}
    (hname : label.name.meaning = .ok tagName) (hmeaning : string.meaning = .ok tag) {fault : Fault}
    (hfault : kindOfName tag = .error fault) (fuel room : Nat) (inside : Blanks) (rest : List Char) :
    readNode (fuel + 1) (room + 1)
      ('{' :: (inside.chars ++ label.name.write (label.writeValue (.string string) rest))) = .error fault := by
  have htag : readTag ((Spelling.string string).write rest) = .error fault := by
    rw [Spelling.write, readTag_string, hmeaning, ok_bind, hfault, leaving_error]
  have hmember : readNodeMember (fuel + 1) room tagName {} (label.writeValue (.string string) rest) = .error fault := by
    rw [readNodeMember, if_pos rfl, Label.writeValue, colon_write, ok_bind, readTag_blanks, htag]
    rfl
  have hnext : nextMember true (label.name.write (label.writeValue (.string string) rest)) =
      .ok (.item, label.name.writeOpened (label.writeValue (.string string) rest)) := rfl
  rw [readNode, readToken_openObject, ok_bind]
  dsimp only [enter]
  rw [ok_bind, objectMembers_blanks, objectMembers, hnext, ok_bind]
  dsimp only
  rw [readString_write, hname, leaving_ok, ok_bind]
  dsimp only
  rw [hmember]
  rfl

theorem load_of_opensWithTag {tag text : String} (h : OpensWithTag tag text) {fault : Fault}
    (hfault : kindOfName tag = .error fault) : load text = .error fault := by
  obtain ⟨before, inside, label, string, rest, hname, hmeaning, rfl⟩ := h
  rw [load, readAll, bound, String.toList_ofList, readNode_blanks, maxDepth,
    readNode_of_tag hname hmeaning hfault _ 126 inside rest]
  rfl

end Node

/-- Names mean the same for every reader. A name is that of a kind exactly if the search among all kinds finds this
kind, and exactly if its JSON string, in any spelling, loads as the kind; what loads from an object that has the name
as its tag is then of the kind. Where the search fails, its error carries the name, the JSON string is refused, and so
is every text that starts an object with this tag, whatever follows. -/
theorem Kind.names_agree (name : String) :
    IsStringText name (Value.string name).text ∧
    (∀ k : Kind,
      (Kind.parse name = .ok k ↔ name = k.name) ∧
      (∀ text, IsStringText name text → (Kind.load text = .ok k ↔ name = k.name)) ∧
      (name = k.name → ∀ text, Node.IsTaggedText name text → ∀ node, Node.load text = .ok node → node.kind = k)) ∧
    ∀ error, Kind.parse name = .error error →
      error = .unknownKind name ∧
      (∀ text, IsStringText name text → Kind.load text = .error (.content (.unknownTag name))) ∧
      ∀ text, Node.OpensWithTag name text → Node.load text = .error (.content (.unknownTag name)) := by
  refine ⟨isStringText_text name, fun k => ⟨Kind.parse_eq_ok_iff, fun text htext => ?_, ?_⟩, fun error herror => ?_⟩
  · rw [Kind.load_of_isStringText htext, kindOfName_eq_ok_iff]
  · rintro rfl text htext node hnode
    exact (Kind.name_inj (Node.tag_of_load htext hnode)).symm
  · obtain ⟨hnone, rfl⟩ := Kind.parse_eq_error_iff.mp herror
    have hfault := kindOfName_of_ofName?_eq_none hnone
    exact ⟨rfl, fun text htext => (Kind.load_of_isStringText htext).trans hfault,
      fun text htext => Node.load_of_opensWithTag htext hfault⟩

/-- A tag behind its member loads, and an unknown one is refused in a text that is malformed behind it. -/
theorem Kind.names_agree_identifier_unary :
    Node.IsTaggedText "Identifier" "\x7b\"symbol\":\"x\",\"kind\":\"Identifier\"\x7d" ∧
    Node.load "\x7b\"symbol\":\"x\",\"kind\":\"Identifier\"\x7d" = .ok (.identifier "x") ∧
    (Node.identifier "x").kind = .identifier ∧
    Kind.parse "Unary" = .error (.unknownKind "Unary") ∧
    Kind.load (Value.string "Unary").text = .error (.content (.unknownTag "Unary")) ∧
    Node.OpensWithTag "Unary" "\x7b \"kind\":\"Unary\",]" ∧
    Node.load "\x7b \"kind\":\"Unary\",]" = .error (.content (.unknownTag "Unary")) := by
  have htagged : Node.IsTaggedText "Identifier" "\x7b\"symbol\":\"x\",\"kind\":\"Identifier\"\x7d" :=
    ⟨{}, {}, [({ name := spelledString "symbol" }, .string (spelledString "x")),
        ({ name := spelledString Node.tagName }, .string (spelledString "Identifier"))],
      { name := spelledString Node.tagName }, spelledString "Identifier", meaning_spelledString _,
      meaning_spelledString _, by simp, by decide +kernel⟩
  have hload : Node.load "\x7b\"symbol\":\"x\",\"kind\":\"Identifier\"\x7d" = .ok (.identifier "x") := by decide +kernel
  have hunknown : Kind.parse "Unary" = .error (.unknownKind "Unary") := by decide
  have hopens : Node.OpensWithTag "Unary" "\x7b \"kind\":\"Unary\",]" :=
    ⟨{}, ⟨[' '], List.forall_mem_singleton.mpr rfl⟩, { name := spelledString Node.tagName }, spelledString "Unary",
      [',', ']'], meaning_spelledString _, meaning_spelledString _, by decide +kernel⟩
  obtain ⟨-, hknown, -⟩ := Kind.names_agree "Identifier"
  obtain ⟨hstring, -, hrefused⟩ := Kind.names_agree "Unary"
  obtain ⟨-, hkind, hnode⟩ := hrefused _ hunknown
  exact ⟨htagged, hload, (hknown .identifier).2.2 rfl _ htagged _ hload, hunknown, hkind _ hstring, hopens,
    hnode _ hopens⟩

end SyntaxTree
