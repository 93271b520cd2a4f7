import SyntaxTree.Proofs.Room

/-!
The JSON form of a tree makes the same tree again, with every pattern that is no number replaced by the one
that stands for all. Read straight from its text, as a node or as a record, it needs room for as many brackets
as the tree is deep in JSON: one for each node on a path, and one more for each program.
-/

namespace SyntaxTree

open Json

namespace Node

/-- What holds of leaves, and of programs and expressions over trees of which it holds, holds of all trees. -/
@[elab_as_elim]
theorem induction {P : Node → Prop} (program : ∀ body, (∀ node ∈ body, P node) → P (.program body))
    (number : ∀ x, P (.number x)) (null : P .null) (identifier : ∀ symbol, P (.identifier symbol))
    (binary : ∀ left operator right, P left → P right → P (.binary left operator right))
    (string : ∀ value, P (.string value)) (node : Node) : P node := by
  induction node using childInduction with
  | h node ih =>
    cases node with
    | program body => exact program body ih
    | number x => exact number x
    | null => exact null
    | identifier symbol => exact identifier symbol
    | binary left operator right =>
      exact binary left operator right (ih left (by simp [children])) (ih right (by simp [children]))
    | string value => exact string value

mutual

/-- How many brackets are open inside each other in the JSON text of a tree. -/
def jsonDepth : Node → Nat
  | program body => bodyDepth body + 2
  | binary left _ right => max left.jsonDepth right.jsonDepth + 1
  | _ => 1

def bodyDepth : List Node → Nat
  | [] => 0
  | node :: nodes => max node.jsonDepth (bodyDepth nodes)

end

mutual

/-- The same tree with every pattern that is no number replaced by `Double.nan`. -/
def canonical : Node → Node
  | program body => program (canonicalAll body)
  | number x => number x.canonical
  | binary left operator right => binary left.canonical operator right.canonical
  | node => node

def canonicalAll : List Node → List Node
  | [] => []
  | node :: nodes => node.canonical :: canonicalAll nodes

end

/-! ### Values -/

theorem depth_toValue (node : Node) : node.toValue.depth = node.jsonDepth := by
  have htagged : ∀ node : Node, node.toValue.depth = Value.membersDepth node.members + 1 := by
    intro node
    rw [toValue, tagged, Value.depth, Value.membersDepth, Value.depth, Nat.zero_max]
    all_goals simp
  have hnumber : ∀ x : Double, x.toValue.depth = 0 := by
    intro x
    unfold Double.toValue
    split <;> rfl
  induction node using induction with
  | program body ih =>
    have hbody : Value.itemsDepth (valuesOf body) = bodyDepth body := by
      induction body with
      | nil => rfl
      | cons node nodes ih' =>
        rw [valuesOf, Value.itemsDepth, bodyDepth, ih' fun node h => ih node (List.mem_cons_of_mem _ h)]
        exact congrArg (max · _) (ih node List.mem_cons_self)
    rw [htagged, members, Value.membersDepth, Value.depth, hbody, jsonDepth]
    rfl
  | number x =>
    rw [htagged, members, Value.membersDepth, hnumber]
    rfl
  | null => rfl
  | identifier symbol => rfl
  | binary left operator right ihLeft ihRight =>
    have hmembers : Value.membersDepth (Node.binary left operator right).members =
        max left.toValue.depth (max right.toValue.depth 0) := rfl
    rw [htagged, hmembers, ihLeft, ihRight, jsonDepth, Nat.max_zero]
  | string value => rfl

theorem isReadable_toValue (node : Node) : node.toValue.IsReadable := by
  have htagged : ∀ node : Node, Value.MembersReadable node.members → node.toValue.IsReadable :=
    fun node h => ⟨trivial, h⟩
  have hnumber : ∀ x : Double, x.toValue.IsReadable := by
    intro x
    unfold Double.toValue
    split
    · assumption
    · trivial
  induction node using induction with
  | program body ih =>
    have hbody : Value.ItemsReadable (valuesOf body) := by
      induction body with
      | nil => trivial
      | cons node nodes ih' =>
        exact ⟨ih node List.mem_cons_self, ih' fun node h => ih node (List.mem_cons_of_mem _ h)⟩
    exact htagged (.program body) ⟨hbody, trivial⟩
  | number x => exact htagged (.number x) ⟨hnumber x, trivial⟩
  | null => exact htagged .null trivial
  | identifier symbol => exact htagged (.identifier symbol) ⟨trivial, trivial⟩
  | binary left operator right ihLeft ihRight =>
    exact htagged (.binary left operator right) ⟨ihLeft, ihRight, trivial, trivial⟩
  | string value => exact htagged (.string value) ⟨trivial, trivial⟩

/-! ### Making sense of the values -/

/-- A number of either form is made sense of as the number itself. -/
theorem numberOfValue_toValue (x : Double) : numberOfValue x.toValue = .ok x.canonical := by
  cases hnan : x.isNaN with
  | true =>
    have hfinite : ¬x.isFinite = true := by
      simp only [Double.isNaN, Double.isFinite, decide_eq_true_eq] at *
      omega
    rw [Double.toValue, if_neg hfinite, Double.canonical, if_pos hnan]
    simp only [Double.text, Double.textChars, hnan, if_true]
    rfl
  | false =>
    have hcanonical : x.canonical = x := by rw [Double.canonical, if_neg (by simp [hnan])]
    rw [hcanonical]
    by_cases hfinite : x.isFinite = true
    · rw [Double.toValue, if_pos hfinite]
      rfl
    · have hinfinite : x.magnitude = Double.infiniteMagnitude := by
        simp only [Double.isNaN, Double.isFinite, decide_eq_true_eq, decide_eq_false_iff_not] at *
        omega
      rw [Double.toValue, if_neg hfinite]
      obtain ⟨negative, magnitude, hlt⟩ := x
      subst hinfinite
      cases negative <;> rfl

theorem slot_tagName (draft : Draft) : draft.slot tagName = .unknown := by
  cases draft <;> simp [Draft.slot, tagName]

/-- Members with other names do not matter for the tag. -/
theorem tagOfMembers_skip {members : List (String × Value)} (h : ∀ member ∈ members, member.1 ≠ tagName)
    (tag? : Option Kind) (members' : List (String × Value)) :
    tagOfMembers tag? (members ++ members') = tagOfMembers tag? members' := by
  induction members with
  | nil => rfl
  | cons member members ih =>
    rw [List.cons_append, tagOfMembers, if_neg (h member List.mem_cons_self)]
    exact ih fun member hmember => h member (List.mem_cons_of_mem _ hmember)

theorem tagOfMembers_some (k : Kind) (members : List (String × Value)) (h : ∀ member ∈ members, member.1 ≠ tagName) :
    tagOfMembers (some k) members = .ok k := by
  have hskip := tagOfMembers_skip h (some k) []
  rwa [List.append_nil] at hskip

theorem ne_tagName_of_mem_members (node : Node) : ∀ member ∈ node.members, member.1 ≠ tagName := by
  cases node <;> simp [members, tagName]

theorem kindOfName_name (k : Kind) : kindOfName k.name = .ok k := by
  rw [kindOfName, Kind.ofName?_eq_some_iff.mpr rfl]

theorem fillMembers_vacant {draft : Draft} {name : String} {place : Place} {fill : place.Content → Draft} {v : Value}
    {content : place.Content} (hslot : draft.slot name = .vacant place fill)
    (hcontent : contentOfValue place v = .ok content) (members : List (String × Value)) :
    fillMembers draft ((name, v) :: members) = fillMembers (fill content) members := by
  rw [fillMembers, hslot]
  dsimp only
  rw [hcontent, ok_bind]

theorem contentOfValue_string (text : String) : contentOfValue .text (.string text) = .ok text := by
  rw [contentOfValue]
  rfl

/-- The members of a node fill in its record, if sense is made of the nodes below it. -/
theorem ofMembers_members (node : Node) (h : ∀ child ∈ node.children, ofValue child.toValue = .ok child.canonical) :
    ofMembers node.kind node.members = .ok node.canonical := by
  cases node with
  | program body =>
    have hbody : nodesOfValues (valuesOf body) = .ok (canonicalAll body) := by
      induction body with
      | nil => rfl
      | cons node nodes ih =>
        have hnode : contentOfValue .node (tagged node.kind node.members) = .ok node.canonical :=
          h node List.mem_cons_self
        rw [valuesOf, nodesOfValues, hnode, ok_bind, ih fun node hnode => h node (List.mem_cons_of_mem _ hnode)]
        rfl
    have hcontent : contentOfValue .nodes (.array (valuesOf body)) = .ok (canonicalAll body) := by
      rw [contentOfValue]
      exact hbody
    rw [ofMembers, members, kind, fillMembers_vacant rfl hcontent, fillMembers]
    rfl
  | number x =>
    have hcontent : contentOfValue .number x.toValue = .ok x.canonical := by
      rw [contentOfValue]
      exact numberOfValue_toValue x
    rw [ofMembers, members, kind, fillMembers_vacant rfl hcontent, fillMembers]
    rfl
  | null => rfl
  | identifier symbol =>
    rw [ofMembers, members, kind, fillMembers_vacant rfl (contentOfValue_string symbol), fillMembers]
    rfl
  | binary left operator right =>
    have hleft : contentOfValue .node (tagged left.kind left.members) = .ok left.canonical :=
      h left List.mem_cons_self
    have hright : contentOfValue .node (tagged right.kind right.members) = .ok right.canonical :=
      h right (List.mem_cons_of_mem _ List.mem_cons_self)
    rw [ofMembers, members, kind, fillMembers_vacant rfl hleft, fillMembers_vacant rfl hright,
      fillMembers_vacant rfl (contentOfValue_string operator), fillMembers]
    rfl
  | string value =>
    rw [ofMembers, members, kind, fillMembers_vacant rfl (contentOfValue_string value), fillMembers]
    rfl

/-- The tag in front of the members is passed over when they fill in a record. -/
theorem ofMembers_tag (k : Kind) (v : Value) (members : List (String × Value)) :
    ofMembers k ((tagName, v) :: members) = ofMembers k members := by
  rw [ofMembers, fillMembers, slot_tagName, ofMembers]

theorem ofValue_tagged (k : Kind) (members : List (String × Value)) (h : ∀ member ∈ members, member.1 ≠ tagName) :
    ofValue (tagged k members) = ofMembers k members := by
  have htag : tagOfMembers none ((tagName, .string k.name) :: members) = .ok k := by
    rw [tagOfMembers, if_pos rfl, kindOfValue, kindOfName_name, ok_bind]
    exact tagOfMembers_some k members h
  rw [tagged, ofValue_object, htag, ok_bind, ofMembers_tag]

/-- The JSON form of a tree makes the tree again. -/
theorem ofValue_toValue (node : Node) : ofValue node.toValue = .ok node.canonical := by
  induction node using childInduction with
  | h node ih =>
    rw [toValue, ofValue_tagged node.kind node.members (ne_tagName_of_mem_members node)]
    exact ofMembers_members node ih

/-- The members of a node without its tag make it again. -/
theorem ofMembers_own (node : Node) : ofMembers node.kind node.members = .ok node.canonical :=
  ofMembers_members node fun child _ => ofValue_toValue child

/-! ### Reading the text of a node -/

theorem foldMembers_cons {σ : Type} (f : σ → String → Spelling → Except Fault σ) (state : σ) (name : String)
    (v : Value) (members : List (String × Value)) :
    foldMembers f state (Value.membersSpelling ((name, v) :: members)) = (do
      let state ← f state name v.spelling
      foldMembers f state (Value.membersSpelling members)) := by
  rw [Value.membersSpelling, foldMembers_label, meaning_spelledString, ok_bind]

/-- Members other than the tag are kept, where there is room for their brackets. -/
theorem foldMembers_addMember (members : List (String × Value)) (hname : ∀ member ∈ members, member.1 ≠ tagName)
    (hreadable : Value.MembersReadable members) (room : Nat) (parts : NodeParts) :
    foldMembers (Spelling.addMember room) parts (Value.membersSpelling members) =
      within (Value.membersDepth members) room { parts with members := members.reverse ++ parts.members } := by
  induction members generalizing parts with
  | nil => exact (within_zero room _).symm
  | cons member members ih =>
    obtain ⟨name, v⟩ := member
    obtain ⟨hv, hrest⟩ := hreadable
    have hadd : v.spelling.addMember room parts name =
        within v.depth room { parts with members := (name, v) :: parts.members } := by
      rw [Spelling.addMember, if_neg (hname (name, v) List.mem_cons_self), v.meaning_spelling hv]
      exact within_bind_ok rfl
    rw [foldMembers_cons, hadd, Value.membersDepth]
    apply within_bind
    rw [ih (fun member h => hname member (List.mem_cons_of_mem _ h)) hrest]
    simp

theorem textMeaning_string (expected : Expected) (text : String) :
    (Value.string text).spelling.textMeaning expected = .ok text := by
  have hmeaning : (Value.string text).spelling.meaning 0 = .ok (.string text) :=
    Value.meaning_spelling (.string text) trivial 0
  rw [Spelling.textMeaning_of_isScalar rfl, hmeaning, ok_bind]

theorem tagMeaning_name (k : Kind) : (Value.string k.name).spelling.tagMeaning = .ok k := by
  rw [Spelling.tagMeaning, textMeaning_string, ok_bind, kindOfName_name]

/-- Read straight from its text, a node needs room for as many brackets as it is deep. -/
theorem nodeMeaning_toValue (node : Node) (room : Nat) :
    node.toValue.spelling.nodeMeaning room = within node.jsonDepth room node.canonical := by
  have hreadable : Value.MembersReadable node.members := (isReadable_toValue node).2
  have hdepth : node.jsonDepth = Value.membersDepth node.members + 1 := by
    rw [← depth_toValue, toValue, tagged, Value.depth, Value.membersDepth, Value.depth, Nat.zero_max]
    all_goals simp
  have htag : ∀ room, (Value.string node.kind.name).spelling.addMember room {} tagName =
      .ok { tag? := some node.kind } := by
    intro room
    rw [Spelling.addMember, if_pos rfl, if_neg (by simp), tagMeaning_name, ok_bind]
  rw [toValue, tagged, Value.spelling, Spelling.nodeMeaning, hdepth]
  apply enter_bind
  intro room
  rw [foldMembers_cons, htag, ok_bind, foldMembers_addMember _ (ne_tagName_of_mem_members node) hreadable]
  apply within_bind_ok
  rw [List.append_nil, List.reverse_reverse]
  exact ofMembers_own node

/-! ### Reading the text of a record -/

/-- A member whose field is still empty fills it, if there is room for its brackets and for those that follow. -/
theorem foldMembers_vacant (draft : Draft) (name : String) {draft' : Draft} {place : Place}
    {fill : place.Content → Draft} {v : Value} {content : place.Content} {members : List (String × Value)}
    {m n room : Nat}
    (hslot : draft.slot name = .vacant place fill)
    (hcontent : v.spelling.contentMeaning room place = within m room content)
    (hrest : foldMembers (Spelling.addField room) (fill content) (Value.membersSpelling members) =
      within n room draft') :
    foldMembers (Spelling.addField room) draft (Value.membersSpelling ((name, v) :: members)) =
      within (max m n) room draft' := by
  have hadd : v.spelling.addField room draft name = within m room (fill content) := by
    rw [Spelling.addField, hslot]
    dsimp only
    rw [hcontent]
    exact within_bind_ok rfl
  rw [foldMembers_cons, hadd]
  exact within_bind hrest

theorem foldMembers_nil (draft : Draft) (room : Nat) :
    foldMembers (Spelling.addField room) draft (Value.membersSpelling []) = within 0 room draft :=
  (within_zero room draft).symm

theorem contentMeaning_string (text : String) (room : Nat) :
    (Value.string text).spelling.contentMeaning room .text = within 0 room text := by
  rw [within_zero]
  exact textMeaning_string .text text

theorem meaning_toValue (x : Double) (room : Nat) : x.toValue.spelling.meaning room = .ok x.toValue := by
  have hscalar : x.toValue.depth = 0 ∧ x.toValue.IsReadable := by
    unfold Double.toValue
    split
    · rename_i h
      exact ⟨rfl, h⟩
    · exact ⟨rfl, trivial⟩
  rw [x.toValue.meaning_spelling hscalar.2, hscalar.1, within_zero]

theorem contentMeaning_number (x : Double) (room : Nat) :
    x.toValue.spelling.contentMeaning room .number = within 0 room x.canonical := by
  rw [Spelling.contentMeaning, meaning_toValue, ok_bind, numberOfValue_toValue, within_zero]

theorem contentMeaning_nodes (body : List Node) (room : Nat) :
    (Value.array (valuesOf body)).spelling.contentMeaning room .nodes =
      within (bodyDepth body + 1) room (canonicalAll body) := by
  have hitems : ∀ room, (Value.itemsSpelling (valuesOf body)).mapM (fun item => item.2.nodeMeaning room) =
      within (bodyDepth body) room (canonicalAll body) := by
    intro room
    induction body with
    | nil => exact (within_zero room _).symm
    | cons node nodes ih =>
      have hnode := nodeMeaning_toValue node room
      rw [valuesOf, Value.itemsSpelling, List.mapM_cons, bodyDepth]
      rw [toValue] at hnode
      rw [hnode]
      apply within_bind
      rw [ih]
      exact within_bind_ok rfl
  rw [Spelling.contentMeaning, Value.spelling, Spelling.nodesMeaning]
  exact enter_bind hitems

/-- Read as a record of its kind, a node needs the same room. -/
theorem recordMeaning_toRecord (node : Node) (room : Nat) :
    node.toRecord.spelling.recordMeaning node.kind room = within node.jsonDepth room node.canonical := by
  rw [toRecord, Value.spelling, Spelling.recordMeaning]
  cases node with
  | program body =>
    apply enter_bind
    intro room
    have hfold := foldMembers_vacant (.blank .program) "body" rfl (contentMeaning_nodes body room)
      (foldMembers_nil _ room)
    rw [members, kind, hfold]
    exact within_bind_ok rfl
  | number x =>
    apply enter_bind
    intro room
    have hfold := foldMembers_vacant (.blank .numericLiteral) "value" rfl (contentMeaning_number x room)
      (foldMembers_nil _ room)
    rw [members, kind, hfold]
    exact within_bind_ok rfl
  | null =>
    apply enter_bind
    exact fun room => (within_zero room _).symm
  | identifier symbol =>
    apply enter_bind
    intro room
    have hfold := foldMembers_vacant (.blank .identifier) "symbol" rfl (contentMeaning_string symbol room)
      (foldMembers_nil _ room)
    rw [members, kind, hfold]
    exact within_bind_ok rfl
  | binary left operator right =>
    apply enter_bind
    intro room
    have hleft : left.toValue.spelling.contentMeaning room .node = within left.jsonDepth room left.canonical :=
      nodeMeaning_toValue left room
    have hright : right.toValue.spelling.contentMeaning room .node =
        within right.jsonDepth room right.canonical := nodeMeaning_toValue right room
    have hfold := foldMembers_vacant (.blank .binaryExpression) "left" rfl hleft
      (foldMembers_vacant _ "right" rfl hright
        (foldMembers_vacant _ "operator" rfl (contentMeaning_string operator room) (foldMembers_nil _ room)))
    rw [Nat.max_zero, Nat.max_zero] at hfold
    rw [members, kind]
    rw [toValue, toValue] at hfold
    rw [hfold]
    exact within_bind_ok rfl
  | string value =>
    apply enter_bind
    intro room
    have hfold := foldMembers_vacant (.blank .stringLiteral) "value" rfl (contentMeaning_string value room)
      (foldMembers_nil _ room)
    rw [members, kind, hfold]
    exact within_bind_ok rfl

end Node

end SyntaxTree
