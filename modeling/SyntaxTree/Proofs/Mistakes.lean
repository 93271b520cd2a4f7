import SyntaxTree.Proofs.MemberOrder
import SyntaxTree.Proofs.RoundTrip
import SyntaxTree.Proofs.Tags

/-!
One mistake in the object of one node. A member that is left out, a member that stands there twice and a tag that
names no kind are found wherever the node stands in its tree: making sense of the object ends with the fault that
names the member, every node above ends with the fault of the one below, and nothing that was read before hides it.
-/

namespace SyntaxTree

open Json

namespace Json

/-! ### Values made sense of straight from the text -/

namespace Spelling

/-- A tag that has a value is judged as that value is, unless it is a number. -/
theorem tagMeaning_of_meaning {s : Spelling} {room : Nat} {v : Value} (hv : s.meaning room = .ok v)
    (hnumber : s.isNumber = false) : s.tagMeaning = kindOfValue v := by
  cases s with
  | number n => cases hnumber
  | null =>
    cases hv
    rfl
  | bool value =>
    cases hv
    rfl
  | string string =>
    obtain ⟨text, htext, hv⟩ := bind_eq_ok.mp hv
    cases hv
    rw [tagMeaning_string, htext, ok_bind, kindOfValue]
  | array blanks items =>
    rw [meaning_array] at hv
    obtain ⟨inner, -, hv⟩ := bind_eq_ok.mp hv
    obtain ⟨values, -, hv⟩ := bind_eq_ok.mp hv
    cases hv
    rfl
  | object blanks members =>
    rw [meaning_object] at hv
    obtain ⟨inner, -, hv⟩ := bind_eq_ok.mp hv
    obtain ⟨values, -, hv⟩ := bind_eq_ok.mp hv
    cases hv
    rfl

/-- Where all members have values, the parts of a node are its tag, judged member by member, and the others. -/
theorem foldMembers_addMember_of_meaning {room : Nat} {members : List (Label × Spelling)}
    {values : List (String × Value)} (hvalues : membersMeaning room members = .ok values)
    (hnumber : members.any isNumberTag = false) (parts : NodeParts) :
    foldMembers (addMember room) parts members = (do
      .ok ⟨← values.foldlM judgeTag parts.tag?, (untagged values).reverse ++ parts.members⟩) := by
  induction members generalizing parts values with
  | nil =>
    cases hvalues
    rfl
  | cons member members ih =>
    obtain ⟨label, s⟩ := member
    obtain ⟨name, hname, v, hv, rest, hrest, rfl⟩ := (membersMeaning_cons _ _ _ _ _).mp hvalues
    obtain ⟨hfirst, hothers⟩ := Bool.or_eq_false_iff.mp (List.any_cons.symm.trans hnumber)
    rw [foldMembers_label, hname, ok_bind, addMember, List.foldlM_cons, judgeTag]
    by_cases htag : name = Node.tagName
    · subst htag
      have hnotNumber : s.isNumber = false := by simpa [isNumberTag, hname] using hfirst
      rw [if_pos rfl, if_pos rfl, untagged_tag, tagMeaning_of_meaning hv hnotNumber]
      split
      · rfl
      · cases kindOfValue v with
        | error fault => rfl
        | ok k => exact ih hrest hothers _
    · rw [if_neg htag, if_neg htag, untagged_other htag, hv, ok_bind, ok_bind, ok_bind, ih hrest hothers]
      simp

/-- An object whose members have values is made sense of as these values are, faults and all, unless its tag is a
number. -/
theorem nodeMeaning_object_of_meaning {blanks : Blanks} {members : List (Label × Spelling)} {room : Nat} {v : Value}
    (hv : (object blanks members).meaning room = .ok v) (hnumber : members.any isNumberTag = false) :
    (object blanks members).nodeMeaning room = Node.ofValue v := by
  rw [meaning_object] at hv
  obtain ⟨inner, hroom, hv⟩ := bind_eq_ok.mp hv
  obtain ⟨values, hvalues, hv⟩ := bind_eq_ok.mp hv
  cases hv
  rw [nodeMeaning, hroom, ok_bind, foldMembers_addMember_of_meaning hvalues hnumber, Node.ofValue_object,
    tagOfMembers_eq_foldlM, bind_assoc, bind_assoc]
  congr 1
  funext tag?
  rw [ok_bind, List.append_nil, List.reverse_reverse]
  simp only [ofMembers_untagged]

end Spelling

/-- The compact text of an object with room for its brackets loads as the object is made sense of, if its tags are
strings. -/
theorem Value.load_text_object {members : List (String × Value)} (h : (Value.object members).Fits maxDepth)
    (htag : ∀ member ∈ members, member.1 = Node.tagName → ∃ name, member.2 = .string name) :
    Node.load (Value.object members).text = Node.ofValue (.object members) := by
  have hnumber : (membersSpelling members).any Spelling.isNumberTag = false := by
    clear h
    induction members with
    | nil => rfl
    | cons member members ih =>
      have hfirst : Spelling.isNumberTag ({ name := spelledString member.1 }, member.2.spelling) = false := by
        by_cases hname : member.1 = Node.tagName
        · obtain ⟨name, hstring⟩ := htag member List.mem_cons_self hname
          rw [Spelling.isNumberTag, hstring]
          exact Bool.and_false _
        · simp [Spelling.isNumberTag, meaning_spelledString, hname]
      rw [membersSpelling, List.any_cons, hfirst, Bool.false_or]
      exact ih fun member hmember => htag member (List.mem_cons_of_mem _ hmember)
  have hmeaning : (Value.object members).spelling.meaning maxDepth = .ok (.object members) := by
    rw [meaning_spelling _ h.readable, within_of_le h.depth_le]
  rw [text_eq_textIn, Node.load_textIn]
  exact Spelling.nodeMeaning_object_of_meaning hmeaning hnumber

end Json

/-! ### Members that are missing or stand twice -/

namespace Draft

/-- A record that one more field would finish lacks that field. -/
theorem finish_of_fills {draft : Draft} {name : String} {place : Place} {fill : place.Content → Draft}
    (h : Fills draft name place fill) {content : place.Content} {node : Node}
    (hfinish : (fill content).finish = .ok node) : draft.finish = .error (.missing name) := by
  cases h with
  | body => rfl
  | number => rfl
  | symbol => rfl
  | text => rfl
  | left parts hleft =>
    rw [finish, hleft]
    rfl
  | right parts hright =>
    obtain ⟨left, hleft, -⟩ := bind_eq_ok.mp hfinish
    have hleft' : parts.left? = some left := require_eq_ok hleft
    rw [finish, hleft', hright]
    rfl
  | operator parts hoperator =>
    obtain ⟨left, hleft, hfinish⟩ := bind_eq_ok.mp hfinish
    obtain ⟨right, hright, -⟩ := bind_eq_ok.mp hfinish
    have hleft' : parts.left? = some left := require_eq_ok hleft
    have hright' : parts.right? = some right := require_eq_ok hright
    rw [finish, hleft', hright', hoperator]
    rfl

theorem slot_fill_self {draft : Draft} {name : String} {place : Place} {fill : place.Content → Draft}
    (h : Fills draft name place fill) (content : place.Content) : (fill content).slot name = .filled := by
  cases h <;> rfl

/-- What is filled stays filled when another field is. -/
theorem slot_fill_of_filled {draft : Draft} {name name' : String} {place : Place} {fill : place.Content → Draft}
    (h : Fills draft name place fill) (content : place.Content) (hfilled : draft.slot name' = .filled) :
    (fill content).slot name' = .filled := by
  cases h with
  | body =>
    rw [slot] at hfilled
    split at hfilled <;> cases hfilled
  | number =>
    rw [slot] at hfilled
    split at hfilled <;> cases hfilled
  | symbol =>
    rw [slot] at hfilled
    split at hfilled <;> cases hfilled
  | text =>
    rw [slot] at hfilled
    split at hfilled <;> cases hfilled
  | left parts hleft =>
    rw [slot_binary_eq_filled_iff] at hfilled ⊢
    exact hfilled.imp (fun hname => ⟨hname.1, rfl⟩) id
  | right parts hright =>
    rw [slot_binary_eq_filled_iff] at hfilled ⊢
    exact hfilled.imp id fun hfilled => hfilled.imp (fun hname => ⟨hname.1, rfl⟩) id
  | operator parts hoperator =>
    rw [slot_binary_eq_filled_iff] at hfilled ⊢
    exact hfilled.imp id fun hfilled => hfilled.imp id fun hname => ⟨hname.1, rfl⟩

theorem fillMembers_append_bind (draft : Draft) (members members' : List (String × Value)) :
    fillMembers draft (members ++ members') = (do fillMembers (← fillMembers draft members) members') := by
  simp only [fillMembers_eq_foldlM, List.foldlM_append]

theorem slot_filled_of_fillMembers {draft filled : Draft} {members : List (String × Value)} {name : String}
    (hfill : fillMembers draft members = .ok filled) (h : draft.slot name = .filled) :
    filled.slot name = .filled := by
  rw [fillMembers_eq_foldlM] at hfill
  have hstep : ∀ member ∈ members, ∀ start next : Draft, start.slot name = .filled →
      start.fillWith member.1 (fun place => contentOfValue place member.2) = .ok next →
      next.slot name = .filled ∧ True := by
    intro member hmember start next hstart hnext
    rw [fillWith] at hnext
    split at hnext
    · cases hnext
      exact ⟨hstart, trivial⟩
    · cases hnext
    · rename_i place fill hslot
      obtain ⟨content, -, hnext⟩ := bind_eq_ok.mp hnext
      cases hnext
      exact ⟨slot_fill_of_filled (fills_of_slot hslot) content hstart, trivial⟩
  exact (foldlM_eq_ok hstep h hfill).1

/-- A field that was filled in was vacant before. -/
theorem vacant_of_fillMembers {draft filled : Draft} {name : String} {v : Value} {members : List (String × Value)}
    (hfield : name ∈ draft.kind.fields) (h : fillMembers draft ((name, v) :: members) = .ok filled) :
    ∃ place fill, Fills draft name place fill ∧ ∃ content, fillMembers (fill content) members = .ok filled := by
  rw [fillMembers] at h
  split at h
  · rename_i hslot
    exact absurd hfield (slot_eq_unknown_iff.mp hslot)
  · cases h
  · rename_i place fill hslot
    obtain ⟨content, -, h⟩ := bind_eq_ok.mp h
    exact ⟨place, fill, fills_of_slot hslot, content, h⟩

end Draft

namespace Node

section

variable {k : Kind} {name : String} {v : Value} {before between after : List (String × Value)} {node : Node}

/-- Without one of its fields a record lacks that field. -/
theorem ofMembers_missing (hfield : name ∈ k.fields) (h : ofMembers k (before ++ (name, v) :: after) = .ok node) :
    ofMembers k (before ++ after) = .error (.missing name) := by
  obtain ⟨filled, hfill, hfinish⟩ := bind_eq_ok.mp h
  -- The field may as well be filled in last, and before it all but that field was.
  have hperm : (before ++ (name, v) :: after).Perm (before ++ after ++ [(name, v)]) :=
    List.perm_middle.trans (List.perm_append_singleton _ _).symm
  have hlast := Draft.fillMembers_perm hperm hfill
  rw [Draft.fillMembers_append_bind] at hlast
  obtain ⟨draft, hdraft, hlast⟩ := bind_eq_ok.mp hlast
  have hkind : draft.kind = k := (kind_fillMembers hdraft).trans (Draft.kind_blank k)
  obtain ⟨place, fill, hfills, content, hlast⟩ := Draft.vacant_of_fillMembers (by rwa [hkind]) hlast
  rw [fillMembers] at hlast
  cases hlast
  rw [ofMembers, hdraft, ok_bind, Draft.finish_of_fills hfills hfinish]

/-- A field that stands twice is refused the second time. -/
theorem ofMembers_repeated (hfield : name ∈ k.fields)
    (h : ofMembers k (before ++ (name, v) :: (between ++ after)) = .ok node) :
    ofMembers k (before ++ (name, v) :: (between ++ (name, v) :: after)) = .error (.duplicate name) := by
  obtain ⟨filled, hfill, -⟩ := bind_eq_ok.mp h
  have hassoc : ∀ rest : List (String × Value),
      before ++ (name, v) :: (between ++ rest) = before ++ ((name, v) :: between) ++ rest := by simp
  rw [hassoc, Draft.fillMembers_append_bind, Draft.fillMembers_append_bind, bind_assoc] at hfill
  obtain ⟨draft, hdraft, hfill⟩ := bind_eq_ok.mp hfill
  obtain ⟨next, hnext, -⟩ := bind_eq_ok.mp hfill
  have hkind : draft.kind = k := (kind_fillMembers hdraft).trans (Draft.kind_blank k)
  obtain ⟨place, fill, hfills, content, hbetween⟩ := Draft.vacant_of_fillMembers (by rwa [hkind]) hnext
  have hslot : next.slot name = .filled :=
    Draft.slot_filled_of_fillMembers hbetween (Draft.slot_fill_self hfills content)
  have hrepeated : fillMembers next ((name, v) :: after) = .error (.duplicate name) := by rw [fillMembers, hslot]
  rw [ofMembers, hassoc, Draft.fillMembers_append_bind, Draft.fillMembers_append_bind, bind_assoc, hdraft, ok_bind,
    hnext, ok_bind, hrepeated]
  rfl

end

/-! ### Objects with a mistake -/

/-- The members of an object without and with one mistake, and what is wrong then: a member is left out, a member
stands there a second time, or the tag in front names no kind. -/
inductive Mistake : List (String × Value) → List (String × Value) → Cause → Prop where
  | missing (before after : List (String × Value)) (name : String) (v : Value) :
    Mistake (before ++ (name, v) :: after) (before ++ after) (.missingField name)
  | repeated (before between after : List (String × Value)) (name : String) (v : Value) :
    Mistake (before ++ (name, v) :: (between ++ after)) (before ++ (name, v) :: (between ++ (name, v) :: after))
      (.duplicateField name)
  | misnamed {name : String} (h : ∀ k : Kind, k.name ≠ name) (tag : Value) (members : List (String × Value)) :
    Mistake ((tagName, tag) :: members) ((tagName, .string name) :: members) (.unknownTag name)

/-- The members of a node in a tree, its tag in front. -/
def allMembers (node : Node) : List (String × Value) := (tagName, .string node.kind.name) :: node.members

theorem toValue_eq_object (node : Node) : node.toValue = .object node.allMembers := rfl

theorem mem_fields_of_members {node : Node} {before after : List (String × Value)} {name : String} {v : Value}
    (h : node.members = before ++ (name, v) :: after) : name ∈ node.kind.fields := by
  rw [← map_fst_members, h]
  simp

theorem ofValue_untagged {members : List (String × Value)} (h : ∀ member ∈ members, member.1 ≠ tagName) :
    ofValue (.object members) = .error (.missing tagName) := by
  have hnone := tagOfMembers_skip h none []
  rw [List.append_nil] at hnone
  rw [ofValue_object, hnone]
  rfl

/-- A second tag is refused, whatever it is. -/
theorem ofValue_taggedTwice (k : Kind) {between : List (String × Value)}
    (h : ∀ member ∈ between, member.1 ≠ tagName) (tag : Value) (after : List (String × Value)) :
    ofValue (tagged k (between ++ (tagName, tag) :: after)) = .error (.duplicate tagName) := by
  rw [tagged, ofValue_object, tagOfMembers, if_pos rfl, if_neg (by simp), kindOfValue, kindOfName_name, ok_bind,
    tagOfMembers_skip h, tagOfMembers, if_pos rfl]
  rfl

theorem ofValue_misnamed {name : String} (h : ∀ k : Kind, k.name ≠ name) (members : List (String × Value)) :
    ofValue (.object ((tagName, .string name) :: members)) = .error (.content (.unknownTag name)) := by
  have hnone : Kind.ofName? name = none := by
    cases hkind : Kind.ofName? name with
    | none => rfl
    | some k => exact absurd (Kind.ofName?_eq_some_iff.mp hkind) (h k)
  rw [ofValue_object, tagOfMembers, if_pos rfl, if_neg (by simp), kindOfValue, kindOfName, hnone]
  rfl

/-- The object of a node with a mistake in it is refused for that mistake. -/
theorem ofValue_of_mistake {node : Node} {members : List (String × Value)} {cause : Cause}
    (h : Mistake node.allMembers members cause) : ofValue (.object members) = .error (.content cause) := by
  have hown := ofMembers_own node
  have hnotTag := ne_tagName_of_mem_members node
  generalize hall : node.allMembers = all at h
  -- The member at the head is the tag; any other is a field of the node.
  cases h with
  | missing before after name v =>
    cases before with
    | nil =>
      cases hall
      exact ofValue_untagged hnotTag
    | cons member before =>
      obtain ⟨rfl, -⟩ := List.cons.inj hall
      have hmembers : node.members = before ++ (name, v) :: after := (List.cons.inj hall).2
      have hrest : ∀ member ∈ before ++ after, member.1 ≠ tagName := by
        intro member hmember
        apply hnotTag
        rw [hmembers]
        simp only [List.mem_append, List.mem_cons] at hmember ⊢
        exact hmember.imp id Or.inr
      rw [hmembers] at hown
      exact (ofValue_tagged node.kind _ hrest).trans (ofMembers_missing (mem_fields_of_members hmembers) hown)
  | repeated before between after name v =>
    cases before with
    | nil =>
      obtain ⟨htag, hmembers⟩ := List.cons.inj hall
      cases htag
      apply ofValue_taggedTwice
      intro member hmember
      exact hnotTag member (by rw [hmembers]; exact List.mem_append_left _ hmember)
    | cons member before =>
      obtain ⟨rfl, -⟩ := List.cons.inj hall
      have hmembers : node.members = before ++ (name, v) :: (between ++ after) := (List.cons.inj hall).2
      have hrest : ∀ member ∈ before ++ (name, v) :: (between ++ (name, v) :: after), member.1 ≠ tagName := by
        intro member hmember
        apply hnotTag
        rw [hmembers]
        simp only [List.mem_append, List.mem_cons] at hmember ⊢
        tauto
      rw [hmembers] at hown
      exact (ofValue_tagged node.kind _ hrest).trans (ofMembers_repeated (mem_fields_of_members hmembers) hown)
  | misnamed hname tag members => exact ofValue_misnamed hname members

/-! ### The nodes above -/

/-- Where a node stands in the node above it. -/
inductive Step where
  | statement (before after : List Node)
  | leftOperand (operator : String) (right : Node)
  | rightOperand (left : Node) (operator : String)

namespace Step

def above : Step → Node → Node
  | statement before after, node => program (before ++ node :: after)
  | leftOperand operator right, node => binary node operator right
  | rightOperand left operator, node => binary left operator node

/-- The JSON form of the node above when the node below has a given form. -/
def valueAbove : Step → Value → Value
  | statement before after, v => tagged .program [("body", .array (valuesOf before ++ v :: valuesOf after))]
  | leftOperand operator right, v =>
    tagged .binaryExpression [("left", v), ("right", right.toValue), ("operator", .string operator)]
  | rightOperand left operator, v =>
    tagged .binaryExpression [("left", left.toValue), ("right", v), ("operator", .string operator)]

theorem valueAbove_toValue (step : Step) (node : Node) :
    step.valueAbove node.toValue = (step.above node).toValue := by
  cases step with
  | statement before after =>
    have hvalues : valuesOf before ++ node.toValue :: valuesOf after = valuesOf (before ++ node :: after) := by
      simp only [valuesOf_eq_map, List.map_append, List.map_cons]
    rw [valueAbove, hvalues]
    rfl
  | leftOperand operator right => rfl
  | rightOperand left operator => rfl

/-- The fault of a node is the fault of the node above. -/
theorem ofValue_valueAbove (step : Step) {v : Value} {fault : Fault} (h : ofValue v = .error fault) :
    ofValue (step.valueAbove v) = .error fault := by
  have hfill : ∀ {draft : Draft} {name : String} {place : Place} {fill : place.Content → Draft} {w : Value}
      (members : List (String × Value)), draft.slot name = .vacant place fill →
      contentOfValue place w = .error fault → fillMembers draft ((name, w) :: members) = .error fault := by
    intro draft name place fill w members hslot hcontent
    rw [fillMembers, hslot]
    dsimp only
    rw [hcontent]
    rfl
  cases step with
  | statement before after =>
    have hbody : contentOfValue .nodes (.array (valuesOf before ++ v :: valuesOf after)) = .error fault := by
      rw [contentOfValue]
      induction before with
      | nil =>
        have hnode : contentOfValue .node v = .error fault := h
        rw [valuesOf, List.nil_append, nodesOfValues, hnode]
        rfl
      | cons node nodes ih =>
        have hnode : contentOfValue .node (tagged node.kind node.members) = .ok node.canonical := ofValue_toValue node
        rw [valuesOf, List.cons_append, nodesOfValues, hnode, ok_bind, ih]
        rfl
    rw [valueAbove, ofValue_tagged _ _ (by simp [tagName]), ofMembers, hfill [] rfl hbody]
    rfl
  | leftOperand operator right =>
    rw [valueAbove, ofValue_tagged _ _ (by simp [tagName]), ofMembers, hfill _ rfl h]
    rfl
  | rightOperand left operator =>
    have hleft : contentOfValue .node left.toValue = .ok left.canonical := ofValue_toValue left
    rw [valueAbove, ofValue_tagged _ _ (by simp [tagName]), ofMembers, fillMembers_vacant rfl hleft, hfill _ rfl h]
    rfl

/-- What takes no more room than another value takes no more room in the node above. -/
theorem fits_valueAbove (step : Step) {v w : Value} (h : ∀ room, v.Fits room → w.Fits room) (room : Nat)
    (hfits : (step.valueAbove v).Fits room) : (step.valueAbove w).Fits room := by
  cases step with
  | statement before after =>
    obtain ⟨inner, rfl⟩ := exists_room hfits.depth_le
    simp only [valueAbove, tagged, Value.fits_object, List.forall_mem_cons] at hfits ⊢
    obtain ⟨htag, hbody, hnil⟩ := hfits
    obtain ⟨innermost, rfl⟩ := exists_room hbody.depth_le
    refine ⟨htag, ?_, hnil⟩
    rw [Value.fits_array] at hbody ⊢
    intro item hitem
    rcases List.mem_append.mp hitem with hitem | hitem
    · exact hbody item (List.mem_append_left _ hitem)
    · rcases List.mem_cons.mp hitem with rfl | hitem
      · exact h _ (hbody v (List.mem_append_right _ List.mem_cons_self))
      · exact hbody item (List.mem_append_right _ (List.mem_cons_of_mem _ hitem))
  | leftOperand operator right =>
    obtain ⟨inner, rfl⟩ := exists_room hfits.depth_le
    simp only [valueAbove, tagged, Value.fits_object, List.forall_mem_cons] at hfits ⊢
    exact ⟨hfits.1, h _ hfits.2.1, hfits.2.2⟩
  | rightOperand left operator =>
    obtain ⟨inner, rfl⟩ := exists_room hfits.depth_le
    simp only [valueAbove, tagged, Value.fits_object, List.forall_mem_cons] at hfits ⊢
    exact ⟨hfits.1, hfits.2.1, h _ hfits.2.2.1, hfits.2.2.2⟩

end Step

/-- The tree in which a node stands at the end of the given steps from the root. -/
def treeAt (place : List Step) (node : Node) : Node := place.foldr Step.above node

/-- The JSON form of such a tree when the node has a given form. -/
def valueAt (place : List Step) (v : Value) : Value := place.foldr Step.valueAbove v

theorem valueAt_toValue (place : List Step) (node : Node) :
    valueAt place node.toValue = (treeAt place node).toValue := by
  induction place with
  | nil => rfl
  | cons step place ih =>
    have hstep : valueAt (step :: place) node.toValue = step.valueAbove (valueAt place node.toValue) := rfl
    rw [hstep, ih, Step.valueAbove_toValue]
    rfl

theorem ofValue_valueAt (place : List Step) {v : Value} {fault : Fault} (h : ofValue v = .error fault) :
    ofValue (valueAt place v) = .error fault := by
  induction place with
  | nil => exact h
  | cons step place ih => exact step.ofValue_valueAbove ih

theorem fits_valueAt (place : List Step) {v w : Value} (h : ∀ room, v.Fits room → w.Fits room) :
    ∀ room, (valueAt place v).Fits room → (valueAt place w).Fits room := by
  induction place with
  | nil => exact h
  | cons step place ih => exact step.fits_valueAbove ih

theorem exists_step {tree child : Node} (h : child ∈ tree.children) : ∃ step : Step, step.above child = tree := by
  cases tree with
  | program body =>
    obtain ⟨before, after, rfl⟩ := List.append_of_mem h
    exact ⟨.statement before after, rfl⟩
  | binary left operator right =>
    rcases List.mem_cons.mp h with rfl | h
    · exact ⟨.leftOperand operator right, rfl⟩
    · cases List.mem_singleton.mp h
      exact ⟨.rightOperand left operator, rfl⟩
  | number _ => cases h
  | null => cases h
  | identifier _ => cases h
  | string _ => cases h

/-- Every node that a walk visits stands at some place in the tree, as many steps below the root as it is deep. -/
theorem exists_place {tree node : Node} {depth start : Nat} (h : (depth, node) ∈ tree.walkFrom start) :
    ∃ place : List Step, start + place.length = depth ∧ treeAt place node = tree := by
  induction tree using childInduction generalizing start depth with
  | h tree ih =>
    rw [walkFrom_eq] at h
    rcases List.mem_cons.mp h with heq | h
    · cases heq
      exact ⟨[], rfl, rfl⟩
    · obtain ⟨child, hchild, h⟩ := List.mem_flatMap.mp h
      obtain ⟨place, hdepth, rfl⟩ := ih child hchild h
      obtain ⟨step, hstep⟩ := exists_step hchild
      exact ⟨step :: place, by rw [List.length_cons]; omega, hstep⟩

/-! ### The fault of a text -/

/-- A mistake adds nothing to an object but a copy of a member or a string for its tag. -/
theorem mem_of_mistake {all members : List (String × Value)} {cause : Cause} (h : Mistake all members cause) :
    ∀ member ∈ members, member ∈ all ∨ ∃ name, member = (tagName, .string name) := by
  intro member hmember
  cases h with
  | missing before after name v =>
    left
    simp only [List.mem_append, List.mem_cons] at hmember ⊢
    tauto
  | repeated before between after name v =>
    left
    simp only [List.mem_append, List.mem_cons] at hmember ⊢
    tauto
  | @misnamed name hname tag members =>
    rcases List.mem_cons.mp hmember with rfl | hmember
    · exact .inr ⟨name, rfl⟩
    · exact .inl (List.mem_cons_of_mem _ hmember)

theorem fits_of_mistake {node : Node} {members : List (String × Value)} {cause : Cause}
    (h : Mistake node.allMembers members cause) {room : Nat} (hfits : node.toValue.Fits room) :
    (Value.object members).Fits room := by
  rw [toValue_eq_object] at hfits
  obtain ⟨inner, rfl⟩ := exists_room hfits.depth_le
  rw [Value.fits_object] at hfits ⊢
  intro member hmember
  rcases mem_of_mistake h member hmember with hmember | ⟨name, rfl⟩
  · exact hfits member hmember
  · exact ⟨Nat.zero_le inner, trivial⟩

/-- Below any steps an object stands in an object whose tags are strings if its own are. -/
theorem valueAt_object (place : List Step) {members : List (String × Value)}
    (h : ∀ member ∈ members, member.1 = tagName → ∃ name, member.2 = .string name) :
    ∃ members', valueAt place (.object members) = .object members' ∧
      ∀ member ∈ members', member.1 = tagName → ∃ name, member.2 = .string name := by
  cases place with
  | nil => exact ⟨members, rfl, h⟩
  | cons step place =>
    have hstep : valueAt (step :: place) (.object members) = step.valueAbove (valueAt place (.object members)) := rfl
    rw [hstep]
    cases step <;> exact ⟨_, rfl, by simp [tagName]⟩

/-- One mistake in the object of one node, wherever the node stands, makes the text of the tree fail with the fault
of that mistake. Every node that a walk visits stands at such a place. -/
theorem load_mistake (tree : Node) (hdepth : tree.jsonDepth ≤ 127) :
    (∀ depth node, (depth, node) ∈ tree.walk →
      ∃ place : List Step, place.length = depth ∧ treeAt place node = tree) ∧
    ∀ place node, treeAt place node = tree →
      (valueAt place (.object node.allMembers)).text = tree.json ∧
      ∀ members cause, Mistake node.allMembers members cause →
        load (valueAt place (.object members)).text = .error (.content cause) := by
  constructor
  · intro depth node hwalk
    obtain ⟨place, hlength, htree⟩ := exists_place hwalk
    exact ⟨place, by omega, htree⟩
  · rintro place node rfl
    have hvalue : valueAt place (.object node.allMembers) = (treeAt place node).toValue := valueAt_toValue place node
    refine ⟨congrArg Value.text hvalue, ?_⟩
    intro members cause hmistake
    have hwhole : (valueAt place node.toValue).Fits maxDepth := by
      rw [valueAt_toValue]
      exact ⟨(depth_toValue _).trans_le hdepth, isReadable_toValue _⟩
    have hfits := fits_valueAt place (fun room => fits_of_mistake hmistake) maxDepth hwhole
    have htag : ∀ member ∈ members, member.1 = tagName → ∃ name, member.2 = .string name := by
      intro member hmember hname
      rcases mem_of_mistake hmistake member hmember with hmember | ⟨name, rfl⟩
      · rcases List.mem_cons.mp hmember with rfl | hmember
        · exact ⟨_, rfl⟩
        · exact absurd hname (ne_tagName_of_mem_members node member hmember)
      · exact ⟨name, rfl⟩
    have hfault := ofValue_valueAt place (ofValue_of_mistake hmistake)
    obtain ⟨members', hobject, htags⟩ := valueAt_object place htag
    rw [hobject] at hfits hfault ⊢
    rw [Value.load_text_object hfits htags, hfault]

/-- An operand is left out two steps below the root. -/
theorem load_missing_operand :
    (program [binary null "+" (binary null "-" null)]).jsonDepth ≤ 127 ∧
    load ("\x7b\"kind\":\"Program\",\"body\":[\x7b\"kind\":\"BinaryExpression\"," ++
      "\"left\":\x7b\"kind\":\"NullLiteral\"\x7d,\"right\":\x7b\"kind\":\"BinaryExpression\"," ++
      "\"right\":\x7b\"kind\":\"NullLiteral\"\x7d,\"operator\":\"-\"\x7d,\"operator\":\"+\"\x7d]\x7d") =
      .error (.missing "left") := by
  have hdepth : (program [binary null "+" (binary null "-" null)]).jsonDepth ≤ 127 := by decide
  have hmistake : Mistake (binary null "-" null).allMembers
      [(tagName, .string "BinaryExpression"), ("right", null.toValue), ("operator", .string "-")]
      (.missingField "left") :=
    .missing [(tagName, .string "BinaryExpression")] [("right", null.toValue), ("operator", .string "-")] "left"
      null.toValue
  have hload := ((load_mistake _ hdepth).2 [.statement [] [], .rightOperand null "+"] _ rfl).2 _ _ hmistake
  refine ⟨hdepth, Eq.trans (congrArg load ?_) hload⟩
  decide +kernel

end Node

end SyntaxTree
