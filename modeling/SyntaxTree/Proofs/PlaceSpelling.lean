import SyntaxTree.Proofs.SkipSpelling

/-!
What a spelling means in the place of a text, a node, a list of nodes, a number or a record. The readers of
places follow the text from token to token; these meanings follow the spelling instead, and the two agree.
-/

namespace SyntaxTree.Json

namespace Spelling

/-! ### Meanings -/

def textMeaning (expected : Expected) : Spelling → Except Fault String
  | array _ _ => .error (.mismatch .array expected)
  | object _ _ => .error (.mismatch .object expected)
  | s => do
    match ← s.meaning 0 with
    | .string text => .ok text
    | v => .error (.mismatch v.found expected)

def tagMeaning (s : Spelling) : Except Fault Kind := do kindOfName (← s.textMeaning .tag)

/-- What a member adds to the parts of a node. -/
def addMember (room : Nat) (parts : NodeParts) (name : String) (s : Spelling) : Except Fault NodeParts :=
  if name = Node.tagName then
    if parts.tag?.isSome then .error (.duplicate name)
    else do .ok { parts with tag? := some (← s.tagMeaning) }
  else do .ok { parts with members := (name, ← s.meaning room) :: parts.members }

/-- The node that a spelling stands for where it is read straight from a text. -/
def nodeMeaning (room : Nat) : Spelling → Except Fault Node
  | array _ items => do
    let room ← enter room
    match items with
    | [] => .error (.missing Node.tagName)
    | (_, tag) :: items => do
      let k ← tag.tagMeaning
      Node.ofItems k (← itemsMeaning room items)
  | object _ members => do
    let room ← enter room
    let parts ← foldMembers (addMember room) {} members
    let k ← Draft.require Node.tagName parts.tag?
    Node.ofMembers k parts.members.reverse
  | s => do .error (.mismatch (← s.meaning 0).found .node)

def nodesMeaning (room : Nat) : Spelling → Except Fault (List Node)
  | array _ items => do
    let room ← enter room
    items.mapM fun item => item.2.nodeMeaning room
  | object _ _ => .error (.mismatch .object .nodes)
  | s => do .error (.mismatch (← s.meaning 0).found .nodes)

def contentMeaning (room : Nat) : (place : Place) → Spelling → Except Fault place.Content
  | .node, s => s.nodeMeaning room
  | .nodes, s => s.nodesMeaning room
  | .text, s => s.textMeaning .text
  | .number, s => do numberOfValue (← s.meaning room)

def addField (room : Nat) (draft : Draft) (name : String) (s : Spelling) : Except Fault Draft :=
  match draft.slot name with
  | .unknown => .ok draft
  | .filled => .error (.duplicate name)
  | .vacant place fill => do .ok (fill (← s.contentMeaning room place))

/-- Fills in the fields of a record with the given names; `count` items came before. -/
def addItems (room : Nat) (k : Kind) (count : Nat) (draft : Draft) :
    List String → List (Around × Spelling) → Except Fault Draft
  | [], [] => .ok draft
  | [], _ :: _ => .error .malformed
  | _ :: _, [] => .error (.content (.invalidLength count (.recordItems k)))
  | name :: names, (_, s) :: items =>
    match draft.slot name with
    | .vacant place fill => do
      let content ← s.contentMeaning room place
      addItems room k (count + 1) (fill content) names items
    | _ => .error (.duplicate name)

/-- The node that a spelling stands for as a record of a known kind. -/
def recordMeaning (k : Kind) (room : Nat) : Spelling → Except Fault Node
  | array _ items => do
    let room ← enter room
    let draft ← addItems room k 0 (.blank k) k.fields items
    draft.finish
  | object _ members => do
    let room ← enter room
    let draft ← foldMembers (addField room) (.blank k) members
    draft.finish
  | s => do .error (.mismatch (← s.meaning 0).found (.record k))

theorem textMeaning_of_isScalar {s : Spelling} (h : s.isScalar = true) (expected : Expected) :
    s.textMeaning expected = (do
      match ← s.meaning 0 with
      | .string text => .ok text
      | v => .error (.mismatch v.found expected)) := by
  cases s <;> first | rfl | cases h

theorem nodeMeaning_of_isScalar {s : Spelling} (h : s.isScalar = true) (room : Nat) :
    s.nodeMeaning room = (do .error (.mismatch (← s.meaning 0).found .node)) := by
  cases s <;> first | rfl | cases h

theorem nodesMeaning_of_isScalar {s : Spelling} (h : s.isScalar = true) (room : Nat) :
    s.nodesMeaning room = (do .error (.mismatch (← s.meaning 0).found .nodes)) := by
  cases s <;> first | rfl | cases h

theorem recordMeaning_of_isScalar {s : Spelling} (h : s.isScalar = true) (k : Kind) (room : Nat) :
    s.recordMeaning k room = (do .error (.mismatch (← s.meaning 0).found (.record k))) := by
  cases s <;> first | rfl | cases h

end Spelling

section

variable {bound room : Nat} {s : Spelling} {rest : List Char}

/-! ### Texts and tags -/

theorem readText_write (expected : Expected) (hrest : Ends rest) :
    readText expected (s.write rest) = leaving rest (s.textMeaning expected) := by
  rcases s.scalar_or_brackets with hs | ⟨blanks, items, rfl⟩ | ⟨blanks, members, rfl⟩
  · rw [readText, Spelling.readToken_scalar hs hrest, leaving_bind, Spelling.textMeaning_of_isScalar hs]
    cases s.meaning 0 with
    | error fault => rfl
    | ok v => cases v <;> rfl
  · rfl
  · rfl

theorem readTag_write (hrest : Ends rest) : readTag (s.write rest) = leaving rest s.tagMeaning := by
  rw [readTag, readText_write .tag hrest, Spelling.tagMeaning, leaving_bind, leaving_of_bind]
  rfl

theorem readText_blanks (expected : Expected) (blanks : Blanks) (cs : List Char) :
    readText expected (blanks.chars ++ cs) = readText expected cs := by
  rw [readText, readText, readToken_blanks]

theorem readTag_blanks (blanks : Blanks) (cs : List Char) : readTag (blanks.chars ++ cs) = readTag cs := by
  rw [readTag, readTag, readText_blanks]

/-! ### Nodes -/

theorem readNodeMember_write (label : Label) (name : String) (parts : NodeParts) (hrest : Ends rest)
    (hbound : s.size < bound) :
    readNodeMember bound room name parts (label.writeValue s rest) =
      leaving rest (s.addMember room parts name) := by
  rw [readNodeMember, Spelling.addMember]
  split
  · split
    · rfl
    · rw [Label.writeValue, colon_write, ok_bind, readTag_blanks, readTag_write hrest, leaving_bind,
        leaving_of_bind]
      rfl
  · have hread : readValue bound room (label.afterColon.chars ++ s.write rest) =
        leaving rest (s.meaning room) :=
      (readValue_blanks _ _ _ _).trans (readValue_write bound s room hrest hbound)
    rw [collectMember_write name parts.members hread, leaving_bind, leaving_of_bind]
    cases s.meaning room <;> rfl

theorem readNode_write_array (blanks : Blanks) (items : List (Around × Spelling))
    (hbound : Spelling.itemsSize items < bound) :
    readNode bound room ((Spelling.array blanks items).write rest) =
      leaving rest ((Spelling.array blanks items).nodeMeaning room) := by
  rw [readNode, Spelling.write, readToken_openArray, ok_bind, Spelling.nodeMeaning, leaving_of_bind]
  cases room with
  | zero => rfl
  | succ room =>
    dsimp only [enter]
    rw [ok_bind, ok_bind, nextElement_blanks]
    cases items with
    | nil =>
      rw [Spelling.writeItems, nextElement_close]
      rfl
    | cons item items =>
      obtain ⟨around, tag⟩ := item
      -- What follows the items of an array leaves the first one to be read.
      have htail : Ends (around.after.chars ++ Spelling.writeItems false items (']' :: rest)) :=
        ends_blanks _ (ends_writeItems items rest)
      rw [Spelling.itemsSize] at hbound
      have hread : ∀ item ∈ items, ∀ tail, Ends tail →
          readValue bound room (item.2.write tail) = leaving tail (item.2.meaning room) := by
        intro item hitem tail htail
        have hsize := Spelling.size_le_itemsSize hitem
        exact readValue_write bound item.2 room htail (by omega)
      have hcount := Spelling.length_le_itemsSize items
      rw [Spelling.writeItems, nextElement_item, ok_bind]
      dsimp only
      rw [readTag_write htail, leaving_bind, leaving_of_bind]
      congr 1
      funext k
      dsimp only
      rw [elements_blanks, elements_collect items rest hread bound (by omega) false, leaving_bind,
        Spelling.itemsMeaning_eq_mapM]
      cases items.mapM fun item => item.2.meaning room with
      | error fault => rfl
      | ok values => simp [leaving]

theorem readNode_write_object (blanks : Blanks) (members : List (Label × Spelling))
    (hbound : Spelling.membersSize members < bound) :
    readNode bound room ((Spelling.object blanks members).write rest) =
      leaving rest ((Spelling.object blanks members).nodeMeaning room) := by
  rw [readNode, Spelling.write, readToken_openObject, ok_bind, Spelling.nodeMeaning, leaving_of_bind]
  cases room with
  | zero => rfl
  | succ room =>
    have hstep : ∀ member ∈ members, ∀ name parts tail, Ends tail →
        readNodeMember bound room name parts (member.1.writeValue member.2 tail) =
          leaving tail (member.2.addMember room parts name) := by
      intro member hmember name parts tail htail
      have hsize := Spelling.size_le_membersSize hmember
      exact readNodeMember_write member.1 name parts htail (by omega)
    have hcount := Spelling.length_le_membersSize members
    dsimp only [enter]
    rw [ok_bind, ok_bind, objectMembers_blanks,
      objectMembers_write (f := fun parts name s => s.addMember room parts name)
        members rest hstep bound (by omega) true {}, leaving_bind, leaving_of_bind]
    congr 1
    funext parts
    rw [leaving_of_bind]
    rfl

theorem readNode_write (hrest : Ends rest) (hbound : s.size < bound) :
    readNode bound room (s.write rest) = leaving rest (s.nodeMeaning room) := by
  rcases s.scalar_or_brackets with hs | ⟨blanks, items, rfl⟩ | ⟨blanks, members, rfl⟩
  · rw [readNode, Spelling.readToken_scalar hs hrest, leaving_bind, Spelling.nodeMeaning_of_isScalar hs]
    cases s.meaning 0 <;> rfl
  · rw [Spelling.size] at hbound
    exact readNode_write_array blanks items (by omega)
  · rw [Spelling.size] at hbound
    exact readNode_write_object blanks members (by omega)

theorem readNode_blanks (bound room : Nat) (blanks : Blanks) (cs : List Char) :
    readNode bound room (blanks.chars ++ cs) = readNode bound room cs := by
  rw [readNode, readNode, readToken_blanks]

/-! ### Fields -/

theorem readNodes_write (hrest : Ends rest) (hbound : s.size < bound) :
    readNodes bound room (s.write rest) = leaving rest (s.nodesMeaning room) := by
  rcases s.scalar_or_brackets with hs | ⟨blanks, items, rfl⟩ | ⟨blanks, members, rfl⟩
  · rw [readNodes, Spelling.readToken_scalar hs hrest, leaving_bind, Spelling.nodesMeaning_of_isScalar hs]
    cases s.meaning 0 <;> rfl
  · rw [readNodes, Spelling.write, readToken_openArray, ok_bind, Spelling.nodesMeaning, leaving_of_bind]
    dsimp only
    congr 1
    funext room
    rw [Spelling.size] at hbound
    have hread : ∀ item ∈ items, ∀ tail, Ends tail →
        readNode bound room (item.2.write tail) = leaving tail (item.2.nodeMeaning room) := by
      intro item hitem tail htail
      have hsize := Spelling.size_le_itemsSize hitem
      exact readNode_write htail (by omega)
    have hcount := Spelling.length_le_itemsSize items
    rw [elements_blanks, elements_collect items rest hread bound (by omega) true, leaving_bind]
    cases items.mapM fun item => item.2.nodeMeaning room with
    | error fault => rfl
    | ok nodes => simp [leaving]
  · rfl

/-- A spelled field is read up to its end, and the outcome is what it means in its place. -/
theorem readContent_write (place : Place) (hrest : Ends rest) (hbound : s.size < bound) :
    readContent bound room place (s.write rest) = leaving rest (s.contentMeaning room place) := by
  cases place with
  | node => exact readNode_write hrest hbound
  | nodes => exact readNodes_write hrest hbound
  | text => exact readText_write .text hrest
  | number =>
    rw [readContent, readDouble, readValue_write bound s room hrest hbound, leaving_bind,
      Spelling.contentMeaning, leaving_of_bind]
    rfl

theorem readContent_blanks (bound room : Nat) (place : Place) (blanks : Blanks) (cs : List Char) :
    readContent bound room place (blanks.chars ++ cs) = readContent bound room place cs := by
  cases place with
  | node => exact readNode_blanks bound room blanks cs
  | nodes => rw [readContent, readNodes, readNodes, readToken_blanks]
  | text => exact readText_blanks .text blanks cs
  | number => rw [readContent, readDouble, readDouble, readValue_blanks]

/-! ### Records -/

theorem readField_write (label : Label) (name : String) (draft : Draft) (hrest : Ends rest)
    (hbound : s.size < bound) :
    readField bound room name draft (label.writeValue s rest) =
      leaving rest (s.addField room draft name) := by
  rw [readField, Spelling.addField, Label.writeValue]
  cases draft.slot name with
  | unknown =>
    dsimp only
    rw [colon_write, ok_bind, skip_blanks, skip_write s hbound hrest]
    rfl
  | filled => rfl
  | vacant place fill =>
    dsimp only
    rw [colon_write, ok_bind, readContent_blanks, readContent_write place hrest hbound, leaving_bind,
      leaving_of_bind]
    rfl

theorem readItems_blanks (k : Kind) (count : Nat) (draft : Draft) (names : List String) (blanks : Blanks)
    (cs : List Char) :
    readItems bound room k count draft names (blanks.chars ++ cs) =
      readItems bound room k count draft names cs := by
  cases names with
  | nil => rw [readItems, readItems, closeArray, closeArray, skipBlanks_append]
  | cons name names => rw [readItems, readItems, nextElement_blanks]

/-- An array is not closed where an item follows. -/
theorem closeArray_write (first : Bool) (around : Around) (s : Spelling) (items : List (Around × Spelling))
    (rest : List Char) : closeArray (Spelling.writeItems first ((around, s) :: items) rest) = .error .malformed := by
  rw [closeArray, Spelling.writeItems]
  cases first with
  | true =>
    obtain ⟨c, cs, hcons, hblank, hclose⟩ :=
      s.write_eq_cons (around.after.chars ++ Spelling.writeItems false items rest)
    simp only [writeComma, if_true, skipBlanks_append, hcons, skipBlanks_cons hblank, if_neg hclose]
  | false => rfl

theorem readItems_write (k : Kind) (count : Nat) (draft : Draft) (names : List String)
    (items : List (Around × Spelling)) (hbound : Spelling.itemsSize items < bound) :
    readItems bound room k count draft names (Spelling.writeItems (count == 0) items (']' :: rest)) =
      leaving rest (Spelling.addItems room k count draft names items) := by
  induction names generalizing count draft items with
  | nil =>
    cases items with
    | nil => rfl
    | cons item items =>
      rw [readItems, closeArray_write]
      rfl
  | cons name names ih =>
    cases items with
    | nil =>
      rw [readItems, Spelling.writeItems, nextElement_close]
      rfl
    | cons item items =>
      obtain ⟨around, s⟩ := item
      have htail : Ends (around.after.chars ++ Spelling.writeItems false items (']' :: rest)) :=
        ends_blanks _ (ends_writeItems items rest)
      rw [Spelling.itemsSize] at hbound
      rw [readItems, Spelling.writeItems, nextElement_item, ok_bind, Spelling.addItems]
      cases draft.slot name with
      | unknown => rfl
      | filled => rfl
      | vacant place fill =>
        dsimp only
        rw [readContent_write place htail (by omega), leaving_bind, leaving_of_bind]
        congr 1
        funext content
        dsimp only
        rw [readItems_blanks]
        exact ih (count + 1) (fill content) items (by omega)

theorem readRecord_write_object (k : Kind) (blanks : Blanks) (members : List (Label × Spelling))
    (hbound : Spelling.membersSize members < bound) :
    readRecord k bound room ((Spelling.object blanks members).write rest) =
      leaving rest ((Spelling.object blanks members).recordMeaning k room) := by
  rw [readRecord, Spelling.write, readToken_openObject, ok_bind, Spelling.recordMeaning, leaving_of_bind]
  dsimp only
  congr 1
  funext room
  have hstep : ∀ member ∈ members, ∀ name draft tail, Ends tail →
      readField bound room name draft (member.1.writeValue member.2 tail) =
        leaving tail (member.2.addField room draft name) := by
    intro member hmember name draft tail htail
    have hsize := Spelling.size_le_membersSize hmember
    exact readField_write member.1 name draft htail (by omega)
  have hcount := Spelling.length_le_membersSize members
  rw [objectMembers_blanks, objectMembers_write (f := fun draft name s => s.addField room draft name)
    members rest hstep bound (by omega) true (.blank k), leaving_bind, leaving_of_bind]
  rfl

theorem readRecord_write (k : Kind) (hrest : Ends rest) (hbound : s.size < bound) :
    readRecord k bound room (s.write rest) = leaving rest (s.recordMeaning k room) := by
  rcases s.scalar_or_brackets with hs | ⟨blanks, items, rfl⟩ | ⟨blanks, members, rfl⟩
  · rw [readRecord, Spelling.readToken_scalar hs hrest, leaving_bind, Spelling.recordMeaning_of_isScalar hs]
    cases s.meaning 0 <;> rfl
  · rw [Spelling.size] at hbound
    rw [readRecord, Spelling.write, readToken_openArray, ok_bind, Spelling.recordMeaning, leaving_of_bind]
    dsimp only
    congr 1
    funext room
    have hitems : readItems bound room k 0 (.blank k) k.fields (Spelling.writeItems true items (']' :: rest)) =
        leaving rest (Spelling.addItems room k 0 (.blank k) k.fields items) :=
      readItems_write k 0 (.blank k) k.fields items (by omega)
    rw [readItems_blanks, hitems, leaving_bind, leaving_of_bind]
    rfl
  · rw [Spelling.size] at hbound
    exact readRecord_write_object k blanks members (by omega)

end

/-! ### Loading -/

/-- A text that is a spelling between blanks. -/
def Spelling.textIn (around : Around) (s : Spelling) : String :=
  String.ofList (around.before.chars ++ s.write around.after.chars)

theorem readAll_write {α : Type} {read : Reader α} {around : Around} {s : Spelling} {o : Except Fault α}
    (hblanks : ∀ cs, read (around.before.chars ++ cs) = read cs)
    (hread : read (s.write around.after.chars) = leaving around.after.chars o) :
    readAll read (s.textIn around).toList = o := by
  have hafter : skipBlanks around.after.chars = [] := by
    have happend := skipBlanks_append around.after []
    rwa [List.append_nil] at happend
  rw [Spelling.textIn, String.toList_ofList, readAll, hblanks, hread, leaving_bind]
  simp only [hafter]
  cases o <;> rfl

theorem ends_blanks_nil (blanks : Blanks) : Ends blanks.chars := by
  have happend := ends_blanks blanks ends_nil
  rwa [List.append_nil] at happend

theorem size_lt_bound (around : Around) (s : Spelling) : s.size < bound (s.textIn around) := by
  have hsize := s.size_add_length_le around.after.chars
  rw [bound, Spelling.textIn, String.toList_ofList, List.length_append]
  omega

/-- A text loads as a value, a node or a record as its spelling means. -/
theorem Value.load_textIn (depth : Nat) (around : Around) (s : Spelling) :
    Value.load depth (s.textIn around) = s.meaning depth :=
  readAll_write (readValue_blanks _ _ around.before)
    (readValue_write _ s depth (ends_blanks_nil around.after) (size_lt_bound around s))

end SyntaxTree.Json

namespace SyntaxTree

open Json

theorem Node.load_textIn (around : Around) (s : Spelling) :
    Node.load (s.textIn around) = s.nodeMeaning maxDepth :=
  readAll_write (readNode_blanks _ _ around.before)
    (readNode_write (ends_blanks_nil around.after) (size_lt_bound around s))

theorem Node.loadRecord_textIn (k : Kind) (around : Around) (s : Spelling) :
    Node.loadRecord k (s.textIn around) = s.recordMeaning k maxDepth := by
  have hblanks : ∀ cs, readRecord k (bound (s.textIn around)) maxDepth (around.before.chars ++ cs) =
      readRecord k (bound (s.textIn around)) maxDepth cs := by
    intro cs
    rw [readRecord, readRecord, readToken_blanks]
  exact readAll_write hblanks (readRecord_write k (ends_blanks_nil around.after) (size_lt_bound around s))

end SyntaxTree
