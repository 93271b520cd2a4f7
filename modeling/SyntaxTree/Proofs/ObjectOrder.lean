import SyntaxTree.Proofs.Brackets
import SyntaxTree.Proofs.Walk

/-!
The order of the objects in a text. Each node of a tree is one object in its JSON text, and the objects open in the
order in which a walk through the children visits the nodes. How many brackets are open when an object opens is known
from the kinds of the nodes above its node: one for each of them, one more for each program among them, and its own.
-/

namespace SyntaxTree

open Json

namespace Json

/-! ### Objects in a text -/

/-- The objects that open among the given brackets, with `opened` open before them: how many are open then, the
bracket of the object included, and the characters behind this bracket. -/
def objectsAmong : Nat → List (Char × List Char) → List (Nat × List Char)
  | _, [] => []
  | opened, (c, cs) :: more =>
    if c = '{' then (opened + 1, cs) :: objectsAmong (opened + 1) more
    else if c = '[' then objectsAmong (opened + 1) more
    else objectsAmong (opened - 1) more

/-- Reads a member of an object and keeps it if it is a tag. -/
def readTagMember (bound : Nat) (name : String) (tags : List String) (cs : List Char) :
    Except Fault (List String × List Char) := do
  let cs ← colon cs
  if name = Node.tagName then do
    let (tag, cs) ← readText .tag cs
    .ok (tag :: tags, cs)
  else do
    let cs ← skip bound cs
    .ok (tags, cs)

/-- The tags of an object, from the characters behind its opening bracket. -/
def readTags (bound : Nat) (cs : List Char) : Except Fault (List String) := do
  let (tags, _) ← objectMembers (readTagMember bound) bound true [] cs
  .ok tags.reverse

/-- The objects that open in characters with `opened` brackets open before them, with their tags. -/
def objectsFrom (bound opened : Nat) (cs : List Char) : List (Nat × Except Fault (List String)) :=
  (objectsAmong opened (brackets .outside cs)).map fun (opened, cs) => (opened, readTags bound cs)

/-- The objects of a text in the order in which they open: how many brackets are open then, that of the object
included, and the tags of the object. -/
def objects (text : String) : List (Nat × Except Fault (List String)) := objectsFrom (bound text) 0 text.toList

namespace Spelling

/-! ### Objects in a spelling -/

/-- What a member adds to the tags of an object, the last one first. -/
def addTag (tags : List String) (name : String) (s : Spelling) : Except Fault (List String) :=
  if name = Node.tagName then do .ok ((← s.textMeaning .tag) :: tags) else .ok tags

def tags (members : List (Label × Spelling)) : Except Fault (List String) := do
  .ok (← foldMembers addTag [] members).reverse

mutual

/-- The objects in a spelling with `opened` brackets open around it, each before those inside it. -/
def objectsIn (opened : Nat) : Spelling → List (Nat × Except Fault (List String))
  | array _ items => itemsObjects (opened + 1) items
  | object _ members => (opened + 1, tags members) :: membersObjects (opened + 1) members
  | _ => []

def itemsObjects (opened : Nat) : List (Around × Spelling) → List (Nat × Except Fault (List String))
  | [] => []
  | (_, s) :: items => s.objectsIn opened ++ itemsObjects opened items

def membersObjects (opened : Nat) : List (Label × Spelling) → List (Nat × Except Fault (List String))
  | [] => []
  | (_, s) :: members => s.objectsIn opened ++ membersObjects opened members

end

theorem objectsIn_of_isScalar {s : Spelling} (h : s.isScalar = true) (opened : Nat) : s.objectsIn opened = [] := by
  cases s with
  | array _ _ => cases h
  | object _ _ => cases h
  | _ => rfl

/-! ### The objects of a spelled text -/

section

variable {bound : Nat}

theorem readTagMember_write (label : Label) (s : Spelling) (hsize : s.size < bound) (name : String)
    (tags : List String) {rest : List Char} (hrest : Ends rest) :
    readTagMember bound name tags (label.writeValue s rest) = leaving rest (addTag tags name s) := by
  rw [readTagMember, addTag, Label.writeValue, colon_write, ok_bind]
  split
  · rw [readText_blanks, readText_write .tag hrest, leaving_bind, leaving_of_bind]
    rfl
  · rw [skip_blanks, skip_write s hsize hrest, ok_bind, leaving_ok]

/-- The tags of a spelled object are read, whatever follows the object. -/
theorem readTags_write (members : List (Label × Spelling)) (hbound : membersSize members < bound) (blanks : Blanks)
    (rest : List Char) :
    readTags bound (blanks.chars ++ writeMembers true members ('}' :: rest)) = tags members := by
  have hstep : ∀ member ∈ members, ∀ name collected tail, Ends tail →
      readTagMember bound name collected (member.1.writeValue member.2 tail) =
        leaving tail (addTag collected name member.2) := by
    intro member hmember name collected tail htail
    have hsize := size_le_membersSize hmember
    exact readTagMember_write member.1 member.2 (by omega) name collected htail
  have hcount := length_le_membersSize members
  rw [readTags, objectMembers_blanks, objectMembers_write members rest hstep bound (by omega) true [], leaving_bind,
    tags]

variable (opened : Nat) (rest : List Char)

theorem objectsFrom_congr {cs cs' : List Char} (h : brackets .outside cs = brackets .outside cs') :
    objectsFrom bound opened cs = objectsFrom bound opened cs' := by
  rw [objectsFrom, h, objectsFrom]

theorem objectsFrom_blanks (blanks : Blanks) :
    objectsFrom bound opened (blanks.chars ++ rest) = objectsFrom bound opened rest :=
  objectsFrom_congr opened (brackets_blanks rest blanks)

/-- Whatever follows it, the text of a spelling has the objects of the spelling in front. -/
def ShowsObjects (bound opened : Nat) (s : Spelling) : Prop :=
  ∀ rest, objectsFrom bound opened (s.write rest) = s.objectsIn opened ++ objectsFrom bound opened rest

theorem objectsFrom_writeItems {items : List (Around × Spelling)}
    (h : ∀ item ∈ items, item.2.ShowsObjects bound opened) (first : Bool) :
    objectsFrom bound opened (writeItems first items rest) =
      itemsObjects opened items ++ objectsFrom bound opened rest := by
  induction items generalizing first with
  | nil => rfl
  | cons item items ih =>
    rw [writeItems, objectsFrom_congr opened (brackets_comma _ first), objectsFrom_blanks, h item List.mem_cons_self,
      objectsFrom_blanks, ih (fun item hitem => h item (List.mem_cons_of_mem _ hitem)), itemsObjects,
      List.append_assoc]

theorem objectsFrom_writeMembers {members : List (Label × Spelling)}
    (h : ∀ member ∈ members, member.2.ShowsObjects bound opened) (first : Bool) :
    objectsFrom bound opened (writeMembers first members rest) =
      membersObjects opened members ++ objectsFrom bound opened rest := by
  induction members generalizing first with
  | nil => rfl
  | cons member members ih =>
    rw [writeMembers, objectsFrom_congr opened (brackets_label _ member.1 first), h member List.mem_cons_self,
      objectsFrom_blanks, ih (fun member hmember => h member (List.mem_cons_of_mem _ hmember)), membersObjects,
      List.append_assoc]

theorem showsObjects (s : Spelling) (hbound : s.size < bound) : s.ShowsObjects bound opened := by
  induction s using Spelling.induction generalizing opened with
  | scalar s h =>
    intro rest
    rw [objectsFrom_congr opened (brackets_scalar rest h), objectsIn_of_isScalar h, List.nil_append]
  | array blanks items ih =>
    rw [size] at hbound
    have hinside : ∀ item ∈ items, item.2.ShowsObjects bound (opened + 1) := by
      intro item hitem
      have hsize := size_le_itemsSize hitem
      exact ih item hitem (opened + 1) (by omega)
    intro rest
    have hitems := objectsFrom_writeItems (opened + 1) (']' :: rest) hinside true
    have hclose : objectsFrom bound (opened + 1) (']' :: rest) = objectsFrom bound opened rest := rfl
    have hopen : objectsFrom bound opened ((array blanks items).write rest) =
        objectsFrom bound (opened + 1) (blanks.chars ++ writeItems true items (']' :: rest)) := rfl
    rw [hopen, objectsFrom_blanks, hitems, hclose, objectsIn]
  | object blanks members ih =>
    rw [size] at hbound
    have hinside : ∀ member ∈ members, member.2.ShowsObjects bound (opened + 1) := by
      intro member hmember
      have hsize := size_le_membersSize hmember
      exact ih member hmember (opened + 1) (by omega)
    intro rest
    have hmembers := objectsFrom_writeMembers (opened + 1) ('}' :: rest) hinside true
    have hclose : objectsFrom bound (opened + 1) ('}' :: rest) = objectsFrom bound opened rest := rfl
    have hopen : objectsFrom bound opened ((object blanks members).write rest) =
        (opened + 1, readTags bound (blanks.chars ++ writeMembers true members ('}' :: rest))) ::
          objectsFrom bound (opened + 1) (blanks.chars ++ writeMembers true members ('}' :: rest)) := rfl
    rw [hopen, readTags_write members (by omega), objectsFrom_blanks, hmembers, hclose, objectsIn, List.cons_append]

end

theorem objects_textIn (around : Around) (s : Spelling) : objects (s.textIn around) = s.objectsIn 0 := by
  have htext : (s.textIn around).toList = around.before.chars ++ s.write around.after.chars := String.toList_ofList
  have hafter : objectsFrom (bound (s.textIn around)) 0 around.after.chars = [] := by
    rw [objectsFrom, brackets_after, objectsAmong, List.map_nil]
  rw [objects, htext, objectsFrom_blanks, showsObjects 0 s (size_lt_bound around s), hafter, List.append_nil]

end Spelling

end Json

theorem Double.isScalar_toValue (x : Double) : x.toValue.spelling.isScalar = true := by
  unfold toValue
  split
  · rename_i h
    rw [Value.spelling, dif_pos h]
    rfl
  · rfl

namespace Node

/-! ### Walks that know what is above a node -/

/-- The nodes of a tree in the order of a walk, each with the kinds of the nodes above it, the nearest first. -/
def walkUnder (above : List Kind) : Node → List (List Kind × Node) :=
  traverse (fun above node => node.kind :: above) above

theorem walkUnder_eq (above : List Kind) (node : Node) :
    node.walkUnder above = (above, node) :: node.children.flatMap (walkUnder (node.kind :: above)) :=
  traverse_eq _ above node

/-- A node is as deep in a walk as there are nodes above it. -/
theorem map_walkUnder (above : List Kind) (node : Node) :
    (node.walkUnder above).map (fun (above, node) => (above.length, node)) = node.walkFrom above.length :=
  map_traverse (f := List.length) (fun _ _ => rfl) above node

/-! ### The objects of a tree -/

/-- The text of a node has one tag, that of its kind. -/
theorem objectsIn_tagged (k : Kind) {members : List (String × Value)} (h : ∀ member ∈ members, member.1 ≠ tagName)
    (opened : Nat) :
    (tagged k members).spelling.objectsIn opened =
      (opened + 1, .ok [k.name]) :: Spelling.membersObjects (opened + 1) (Value.membersSpelling members) := by
  have hothers : ∀ tags, foldMembers Spelling.addTag tags (Value.membersSpelling members) = .ok tags := by
    intro tags
    induction members with
    | nil => rfl
    | cons member members ih =>
      rw [foldMembers_cons, Spelling.addTag, if_neg (h member List.mem_cons_self), ok_bind]
      exact ih fun member hmember => h member (List.mem_cons_of_mem _ hmember)
  have htags : Spelling.tags (Value.membersSpelling ((tagName, .string k.name) :: members)) = .ok [k.name] := by
    rw [Spelling.tags, foldMembers_cons, Spelling.addTag, if_pos rfl, textMeaning_string, ok_bind, ok_bind, hothers]
    rfl
  rw [tagged, Value.spelling, Spelling.objectsIn, htags]
  rfl

/-- The objects inside the members of a node are those of its children, in their order. -/
theorem membersObjects_members (node : Node) (opened : Nat) :
    Spelling.membersObjects opened (Value.membersSpelling node.members) =
      node.children.flatMap fun child =>
        child.toValue.spelling.objectsIn (opened + if node.kind = .program then 1 else 0) := by
  cases node with
  | program body =>
    have hbody : Spelling.itemsObjects (opened + 1) (Value.itemsSpelling (valuesOf body)) =
        body.flatMap fun child => child.toValue.spelling.objectsIn (opened + 1) := by
      induction body with
      | nil => rfl
      | cons node nodes ih =>
        rw [valuesOf, Value.itemsSpelling, Spelling.itemsObjects, ih, List.flatMap_cons, toValue]
    exact (List.append_nil _).trans hbody
  | number x =>
    have hscalar := Spelling.objectsIn_of_isScalar x.isScalar_toValue opened
    rw [members, Value.membersSpelling, Spelling.membersObjects, hscalar]
    rfl
  | null => rfl
  | identifier symbol => rfl
  | binary left operator right => rfl
  | string value => rfl

theorem objectsIn_toValue (node : Node) (above : List Kind) :
    node.toValue.spelling.objectsIn (above.length + above.count .program) =
      (node.walkUnder above).map fun (above, node) =>
        (1 + above.length + above.count .program, .ok [node.kind.name]) := by
  induction node using childInduction generalizing above with
  | h node ih =>
    -- one more bracket is open inside the node, and one more still if the children stand in an array
    have hopened : above.length + above.count .program + 1 + (if node.kind = .program then 1 else 0) =
        (node.kind :: above).length + (node.kind :: above).count .program := by
      simp only [List.length_cons, List.count_cons, beq_iff_eq]
      omega
    rw [toValue, objectsIn_tagged node.kind (ne_tagName_of_mem_members node), membersObjects_members, hopened,
      List.flatMap_congr fun child hchild => ih child hchild (node.kind :: above), walkUnder_eq, List.map_cons,
      List.map_flatMap, Nat.add_comm, ← Nat.add_assoc]

/-- The objects of the text of a tree have one tag each, which is the name of the kind of a node, and open in the order
in which a walk visits the nodes. The object of a node opens with as many brackets open as there are nodes above it,
programs counted twice, and one more. -/
theorem objects_json (node : Node) :
    (objects node.json).map Prod.snd = node.walk.map (fun (_, node) => .ok [node.kind.name]) ∧
    objects node.json = (node.walkUnder []).map (fun (above, node) =>
      (1 + above.length + above.count .program, .ok [node.kind.name])) ∧
    (node.walkUnder []).map (fun (above, node) => (above.length, node)) = node.walk := by
  have hobjects : objects node.json = (node.walkUnder []).map (fun (above, node) =>
      (1 + above.length + above.count .program, .ok [node.kind.name])) := by
    rw [json_eq_textIn, Spelling.objects_textIn]
    exact objectsIn_toValue node []
  have hwalk := map_walkUnder [] node
  refine ⟨?_, hobjects, hwalk⟩
  rw [hobjects, walk, ← List.length_nil, ← hwalk, List.map_map, List.map_map]
  rfl

example : objects (program [.string "\x7b\"kind\":["]).json = [(1, .ok ["Program"]), (3, .ok ["StringLiteral"])] := by
  decide +kernel

end Node

end SyntaxTree
