import SyntaxTree.Proofs.Holes
import SyntaxTree.Proofs.OneField

/-!
Where a number stands in a text. The brackets around it are those of a record with its value, and of the nodes that
this record is a part of, each written as an object or as an array; a position tells which member or item of the
brackets holds the number. What loads with one number there loads with every other, and as the same tree but for
that number. Anything else there is refused for what is wrong with it.
-/

namespace SyntaxTree

open Json

/-! ### Lists -/

/-- One item of a list that is gone through, among the others. -/
theorem Json.mapM_middle {α β : Type} {f : α → Except Fault β} {before after : List α} {a₀ : α} {bs : List β}
    (h : (before ++ a₀ :: after).mapM f = .ok bs) : ∃ front b₀ back, bs = front ++ b₀ :: back ∧
      front.length = before.length ∧ f a₀ = .ok b₀ ∧
      ∀ a, (before ++ a :: after).mapM f = (do .ok (front ++ (← f a) :: back)) := by
  induction before generalizing bs with
  | nil =>
    rw [List.nil_append, List.mapM_cons] at h
    obtain ⟨b₀, hb₀, h⟩ := bind_eq_ok.mp h
    obtain ⟨back, hback, h⟩ := bind_eq_ok.mp h
    cases h
    refine ⟨[], b₀, back, rfl, rfl, hb₀, fun a => ?_⟩
    rw [List.nil_append, List.mapM_cons]
    apply bind_congr
    intro b
    rw [hback]
    rfl
  | cons first before ih =>
    rw [List.cons_append, List.mapM_cons] at h
    obtain ⟨b, hb, h⟩ := bind_eq_ok.mp h
    obtain ⟨bs', hbs', h⟩ := bind_eq_ok.mp h
    cases h
    obtain ⟨front, b₀, back, rfl, hlength, hb₀, hall⟩ := ih hbs'
    refine ⟨b :: front, b₀, back, rfl, congrArg Nat.succ hlength, hb₀, fun a => ?_⟩
    rw [List.cons_append, List.mapM_cons, hb, ok_bind, hall, bind_assoc]
    rfl

theorem Draft.fillItems_append (k : Kind) (count : Nat) {names : List String} {before : List Value}
    (hlength : before.length = names.length) (draft : Draft) (names' : List String) (after : List Value) :
    fillItems k count draft (names ++ names') (before ++ after) = (do
      let draft ← fillItems k count draft names before
      fillItems k count draft names' after) := by
  induction names generalizing before draft with
  | nil =>
    cases List.length_eq_zero_iff.mp hlength
    rw [fillItems]
    rfl
  | cons name names ih =>
    cases before with
    | nil => cases hlength
    | cons v before =>
      rw [List.cons_append, List.cons_append, fillItems_cons, fillItems_cons, bind_assoc]
      apply bind_congr
      intro filled
      exact ih (Nat.succ.inj hlength) filled

theorem Draft.addItems_append (room : Nat) (k : Kind) {names : List String} {before : List (Around × Spelling)}
    (hlength : before.length = names.length) (count : Nat) (draft : Draft) (names' : List String)
    (after : List (Around × Spelling)) :
    Spelling.addItems room k count draft (names ++ names') (before ++ after) = (do
      let draft ← Spelling.addItems room k count draft names before
      Spelling.addItems room k (count + before.length) draft names' after) := by
  induction names generalizing before count draft with
  | nil =>
    cases List.length_eq_zero_iff.mp hlength
    rfl
  | cons name names ih =>
    cases before with
    | nil => cases hlength
    | cons item before =>
      rw [List.cons_append, List.cons_append, Spelling.addItems, Spelling.addItems]
      cases hslot : draft.slot name with
      | unknown => rfl
      | filled => rfl
      | vacant place fill =>
        dsimp only
        rw [bind_assoc]
        apply bind_congr
        intro content
        rw [ih (Nat.succ.inj hlength), List.length_cons, Nat.add_right_comm, Nat.add_assoc]

/-! ### Positions -/

/-- Where one part stands in brackets: under a name in an object, or after some items of an array. -/
inductive Position where
  | member (name : String)
  | item (index : Nat)

/-- Where a record of a kind has a field: under its name, or among the items of which the first `tags` are no fields. -/
inductive Position.OfField (tags : Nat) (k : Kind) (name : String) : Position → Prop where
  | member : OfField tags k name (.member name)
  | item (names names' : List String) (h : k.fields = names ++ name :: names') :
    OfField tags k name (.item (tags + names.length))

/-- A number stands at the end of some positions, from the outside in, in the contents of a place that are made
with it. -/
inductive Leads : (place : Place) → List Position → (Double → place.Content) → Prop where
  | number : Leads .number [] id
  | field {k : Kind} {name : String} {inner : Place} {put : inner.Content → Node} {position : Position}
    {positions : List Position} {content : Double → inner.Content} (hput : Puts k name inner put)
    (hposition : position.OfField 1 k name) (h : Leads inner positions content) :
    Leads .node (position :: positions) fun x => put (content x)
  | statement {positions : List Position} {content : Double → Node} (before after : List Node)
    (h : Leads .node positions content) :
    Leads .nodes (.item before.length :: positions) fun x => before ++ content x :: after

/-! ### Values -/

/-- The members or items around a value. -/
inductive ValueFrame where
  | members (before : List (String × Value)) (name : String) (after : List (String × Value))
  | items (before after : List Value)

namespace ValueFrame

def fill : ValueFrame → Value → Value
  | members before name after, v => .object (before ++ (name, v) :: after)
  | items before after, v => .array (before ++ v :: after)

def position : ValueFrame → Position
  | members _ name _ => .member name
  | items before _ => .item before.length

end ValueFrame

/-- A value in brackets, the outermost first. -/
def framed (frames : List ValueFrame) (v : Value) : Value := frames.foldr ValueFrame.fill v

/-- One field of a node is made sense of after the items in front of it and before the others. -/
theorem Node.ofItems_item {k : Kind} {name : String} {names names' : List String}
    (hfields : k.fields = names ++ name :: names') {before : List Value} (hlength : before.length = names.length)
    (after : List Value) (v : Value) :
    Node.ofItems k (before ++ v :: after) = (do
      let draft ← fillItems k (before.length + (after.length + 1)) (.blank k) names before
      let filled ← draft.fillWith name fun place => contentOfValue place v
      let last ← fillItems k (before.length + (after.length + 1)) filled names' after
      last.finish) := by
  rw [Node.ofItems, hfields, Draft.fillItems_append _ _ hlength, List.length_append, List.length_cons, bind_assoc]
  apply bind_congr
  intro draft
  rw [Draft.fillItems_cons, bind_assoc]

/-- The value of a node makes sense with whatever its field holds, or has the fault of the field. -/
theorem Puts.ofValue_fill {k : Kind} {name : String} {place : Place} {put : place.Content → Node}
    (hput : Puts k name place put) {frame : ValueFrame} (hposition : frame.position.OfField 1 k name) {v₀ : Value}
    {content₀ : place.Content} (hopen : Node.ofValue (frame.fill v₀) = .ok (put content₀)) :
    contentOfValue place v₀ = .ok content₀ ∧
      ∀ v, Node.ofValue (frame.fill v) = (do .ok (put (← contentOfValue place v))) := by
  cases frame with
  | members before name' after =>
    obtain rfl : name' = name := by cases hposition; rfl
    rw [ValueFrame.fill, Node.ofValue_member hput.ne_tagName] at hopen
    obtain ⟨k', hk', hopen⟩ := bind_eq_ok.mp hopen
    obtain ⟨draft, hdraft, hopen⟩ := bind_eq_ok.mp hopen
    obtain ⟨hcontent, hall⟩ := hput.fillWith (Draft.respects_fillMembers after) hopen
    refine ⟨hcontent, fun v => ?_⟩
    rw [ValueFrame.fill, Node.ofValue_member hput.ne_tagName, hk', ok_bind, hdraft, ok_bind]
    exact hall fun place => contentOfValue place v
  | items before after =>
    obtain ⟨names, names', hfields, hlength⟩ : ∃ names names', k.fields = names ++ name :: names' ∧
        before.length = 1 + names.length := by
      generalize hindex : (ValueFrame.items before after).position = position at hposition
      cases hposition with
      | member => cases hindex
      | item names names' h => exact ⟨names, names', h, Position.item.inj hindex⟩
    cases before with
    | nil =>
      rw [List.length_nil] at hlength
      omega
    | cons tag before =>
      have hbefore : before.length = names.length := by
        rw [List.length_cons] at hlength
        omega
      rw [ValueFrame.fill, List.cons_append, Node.ofValue_array_cons] at hopen
      obtain ⟨k', hk', hopen⟩ := bind_eq_ok.mp hopen
      obtain rfl : k = k' := (hput.kind_put content₀).symm.trans (Node.kind_ofItems hopen)
      rw [Node.ofItems_item hfields hbefore] at hopen
      obtain ⟨draft, hdraft, hopen⟩ := bind_eq_ok.mp hopen
      obtain ⟨hcontent, hall⟩ := hput.fillWith (Draft.respects_fillItems k _ names' after) hopen
      refine ⟨hcontent, fun v => ?_⟩
      rw [ValueFrame.fill, List.cons_append, Node.ofValue_array_cons, hk', ok_bind,
        Node.ofItems_item hfields hbefore, hdraft, ok_bind]
      exact hall fun place => contentOfValue place v

theorem nodesOfValues_eq_mapM (vs : List Value) : nodesOfValues vs = vs.mapM (contentOfValue .node) := by
  induction vs with
  | nil => rw [nodesOfValues, List.mapM_nil]; rfl
  | cons v vs ih => rw [nodesOfValues, ih, List.mapM_cons]; rfl

/-- One statement of a list among the others, made sense of alone. -/
theorem mapM_statement {α : Type} {f : α → Except Fault Node} {before after : List α} {a₀ : α}
    {front back : List Node} {node₀ : Node} (hlength : before.length = front.length)
    (hopen : (before ++ a₀ :: after).mapM f = .ok (front ++ node₀ :: back)) :
    f a₀ = .ok node₀ ∧ ∀ a, (before ++ a :: after).mapM f = (do .ok (front ++ (← f a) :: back)) := by
  obtain ⟨front', node, back', hnodes, hlength', hnode, hall⟩ := mapM_middle hopen
  obtain ⟨rfl, hrest⟩ := List.append_inj hnodes (hlength.symm.trans hlength'.symm)
  cases hrest
  exact ⟨hnode, hall⟩

/-- What makes sense with one number at the end of the positions makes sense with every other. -/
theorem Leads.contentOfValue_framed {place : Place} {positions : List Position} {content : Double → place.Content}
    (h : Leads place positions content) {frames : List ValueFrame}
    (hframes : frames.map ValueFrame.position = positions) {v₀ : Value} {x₀ : Double}
    (hopen : contentOfValue place (framed frames v₀) = .ok (content x₀)) :
    numberOfValue v₀ = .ok x₀ ∧
      ∀ v, contentOfValue place (framed frames v) = (do .ok (content (← numberOfValue v))) := by
  induction h generalizing frames with
  | number =>
    obtain rfl := List.map_eq_nil_iff.mp hframes
    have hnumber : ∀ v, contentOfValue .number v = numberOfValue v := fun v => by rw [contentOfValue]
    refine ⟨(hnumber v₀).symm.trans hopen, fun v => (hnumber v).trans ?_⟩
    cases numberOfValue v <;> rfl
  | field hput hposition h ih =>
    obtain ⟨frame, frames', rfl, rfl, hrest⟩ := List.map_eq_cons_iff.mp hframes
    obtain ⟨hinner, hall⟩ := hput.ofValue_fill hposition hopen
    obtain ⟨hnumber, hcontent⟩ := ih hrest hinner
    refine ⟨hnumber, fun v => ?_⟩
    have hfill := hall (framed frames' v)
    rw [hcontent, bind_assoc] at hfill
    exact hfill
  | statement before after h ih =>
    obtain ⟨frame, frames', rfl, hposition, hrest⟩ := List.map_eq_cons_iff.mp hframes
    cases frame with
    | members => cases hposition
    | items front back =>
      have hnodes : ∀ v, contentOfValue .nodes (framed (.items front back :: frames') v) =
          (front ++ framed frames' v :: back).mapM (contentOfValue .node) := by
        intro v
        rw [← nodesOfValues_eq_mapM]
        show contentOfValue .nodes (.array (front ++ framed frames' v :: back)) = _
        rw [contentOfValue]
      obtain ⟨hinner, hall⟩ :=
        mapM_statement (Position.item.inj hposition) ((hnodes v₀).symm.trans hopen)
      obtain ⟨hnumber, hcontent⟩ := ih hrest hinner
      refine ⟨hnumber, fun v => ?_⟩
      rw [hnodes, hall, hcontent, bind_assoc]
      rfl

/-! ### Spellings -/

/-- Brackets around one spelling, with all else that stands in them. -/
inductive Enclosure where
  | members (blanks : Blanks) (before : List (Label × Spelling)) (label : Label) (after : List (Label × Spelling))
  | items (blanks : Blanks) (before : List (Around × Spelling)) (around : Around) (after : List (Around × Spelling))

namespace Enclosure

def fill : Enclosure → Spelling → Spelling
  | members blanks before label after, s => .object blanks (before ++ (label, s) :: after)
  | items blanks before around after, s => .array blanks (before ++ (around, s) :: after)

/-- The position of what is enclosed; the name of a member may be spelled in any way. -/
inductive StandsAt : Enclosure → Position → Prop where
  | member {label : Label} {name : String} (named : label.name.meaning = .ok name) (blanks : Blanks)
    (before after : List (Label × Spelling)) : StandsAt (members blanks before label after) (.member name)
  | item (blanks : Blanks) (before : List (Around × Spelling)) (around : Around) (after : List (Around × Spelling)) :
    StandsAt (items blanks before around after) (.item before.length)

variable {e : Enclosure} {position : Position} {s₀ : Spelling} {room : Nat}

/-- The value of brackets has the value of what is enclosed in its place, whatever that is. -/
theorem exists_frame (hat : e.StandsAt position) {v : Value} (h : (e.fill s₀).meaning room = .ok v) :
    ∃ (inner : Nat) (frame : ValueFrame) (v₀ : Value), room = inner + 1 ∧ frame.position = position ∧
      s₀.meaning inner = .ok v₀ ∧ v = frame.fill v₀ ∧
      ∀ s, (e.fill s).meaning (inner + 1) = (do .ok (frame.fill (← s.meaning inner))) := by
  cases hat with
  | @member label name named blanks before after =>
    rw [fill, Spelling.meaning_object] at h
    obtain ⟨inner, hroom, h⟩ := bind_eq_ok.mp h
    obtain ⟨values, hvalues, h⟩ := bind_eq_ok.mp h
    cases h
    obtain rfl := enter_eq_ok hroom
    rw [Spelling.membersMeaning_eq_mapM] at hvalues
    obtain ⟨front, member₀, back, rfl, -, hmember, hall⟩ := mapM_middle hvalues
    rw [Spelling.memberMeaning, named, ok_bind] at hmember
    obtain ⟨v₀, hv₀, hmember⟩ := bind_eq_ok.mp hmember
    cases hmember
    refine ⟨inner, .members front name back, v₀, rfl, rfl, hv₀, rfl, fun s => ?_⟩
    rw [fill, Spelling.meaning_object, enter, ok_bind, Spelling.membersMeaning_eq_mapM, hall, Spelling.memberMeaning,
      named, ok_bind]
    simp only [bind_assoc, ok_bind]
    rfl
  | item blanks before around after =>
    rw [fill, Spelling.meaning_array] at h
    obtain ⟨inner, hroom, h⟩ := bind_eq_ok.mp h
    obtain ⟨values, hvalues, h⟩ := bind_eq_ok.mp h
    cases h
    obtain rfl := enter_eq_ok hroom
    rw [Spelling.itemsMeaning_eq_mapM] at hvalues
    obtain ⟨front, v₀, back, rfl, hlength, hv₀, hall⟩ := mapM_middle hvalues
    refine ⟨inner, .items front back, v₀, rfl, congrArg Position.item hlength, hv₀, rfl, fun s => ?_⟩
    rw [fill, Spelling.meaning_array, enter, ok_bind, Spelling.itemsMeaning_eq_mapM, hall]
    simp only [bind_assoc, ok_bind]
    rfl

/-- A node whose field is not the tag is read straight from the text as its value is made sense of, whatever stands
in the field. -/
theorem nodeMeaning_fill (hat : e.StandsAt position) {k : Kind} {name : String} (hname : name ≠ Node.tagName)
    (hposition : position.OfField 1 k name) {node : Node} (hopen : (e.fill s₀).nodeMeaning room = .ok node)
    (s : Spelling) : (e.fill s).nodeMeaning room = (e.fill s).keptMeaning room := by
  obtain ⟨hnumber, v, hv, -⟩ := Spelling.nodeMeaning_eq_ok_iff.mp hopen
  obtain ⟨inner, frame, v₀, rfl, -, -, -, hmeaning⟩ := exists_frame hat hv
  cases hat with
  | @member label name' named blanks before after =>
    obtain rfl : name' = name := by cases hposition; rfl
    have hother : ∀ s : Spelling, Spelling.isNumberTag (label, s) = false := by
      intro s
      simp [Spelling.isNumberTag, named, hname]
    have hnumber' : (before ++ (label, s) :: after).any Spelling.isNumberTag = false := by
      rw [fill, Spelling.hasNumberTag, List.any_append, List.any_cons, hother] at hnumber
      rw [List.any_append, List.any_cons, hother]
      exact hnumber
    rw [Spelling.keptMeaning]
    cases hs : s.meaning inner with
    | ok w =>
      have hw : (fill (.members blanks before label after) s).meaning (inner + 1) = .ok (frame.fill w) := by
        rw [hmeaning, hs, ok_bind]
      rw [hw, ok_bind]
      exact Spelling.nodeMeaning_object_of_meaning hw hnumber'
    | error fault =>
      -- The members in front were read when the text loaded, so the fault of the field is the first one.
      have hbefore : ∃ parts, foldMembers (Spelling.addMember inner) {} before = .ok parts := by
        rw [fill, Spelling.nodeMeaning, enter, ok_bind] at hopen
        obtain ⟨parts, hparts, -⟩ := bind_eq_ok.mp hopen
        rw [foldMembers, List.foldlM_append] at hparts
        obtain ⟨first, hfirst, -⟩ := bind_eq_ok.mp hparts
        exact ⟨first, hfirst⟩
      obtain ⟨parts, hparts⟩ := hbefore
      rw [foldMembers] at hparts
      rw [hmeaning, hs, fill, Spelling.nodeMeaning, enter, ok_bind, foldMembers, List.foldlM_append, hparts, ok_bind,
        List.foldlM_cons, named, ok_bind, Spelling.addMember, if_neg hname, hs]
      rfl
  | item blanks before around after =>
    cases before with
    | nil =>
      generalize hindex : Position.item [].length = position at hposition
      cases hposition with
      | member => cases hindex
      | item names names' h =>
        have hlength := Position.item.inj hindex
        rw [List.length_nil] at hlength
        omega
    | cons tag before =>
      obtain ⟨tagAround, tag⟩ := tag
      rw [fill, Spelling.meaning_array, enter, ok_bind] at hv
      obtain ⟨values, hvalues, -⟩ := bind_eq_ok.mp hv
      rw [List.cons_append, Spelling.itemsMeaning] at hvalues
      obtain ⟨tagValue, htag, -⟩ := bind_eq_ok.mp hvalues
      rw [fill, Spelling.nodeMeaning, enter, ok_bind] at hopen
      obtain ⟨k', hk', -⟩ := bind_eq_ok.mp hopen
      have hkind := hk'
      rw [Spelling.tagMeaning_of_meaning htag hnumber] at hkind
      rw [Spelling.keptMeaning, fill, Spelling.nodeMeaning, Spelling.meaning_array, enter, ok_bind, ok_bind,
        List.cons_append, Spelling.itemsMeaning, htag, ok_bind]
      dsimp only
      rw [hk', ok_bind]
      simp only [bind_assoc, ok_bind, Node.ofValue_array_cons, hkind]

end Enclosure

/-- A spelling in brackets, the outermost first. -/
def enclosed (enclosures : List Enclosure) (s : Spelling) : Spelling := enclosures.foldr Enclosure.fill s

section

variable {enclosures : List Enclosure} {positions : List Position} {s₀ : Spelling} {room : Nat}

/-- The value of a text has the value of what is enclosed in its place, whatever that is. -/
theorem exists_frames (hat : List.Forall₂ Enclosure.StandsAt enclosures positions) {v : Value}
    (h : (enclosed enclosures s₀).meaning room = .ok v) :
    ∃ (inner : Nat) (frames : List ValueFrame) (v₀ : Value), room = inner + enclosures.length ∧
      frames.map ValueFrame.position = positions ∧ s₀.meaning inner = .ok v₀ ∧ v = framed frames v₀ ∧
      ∀ s, (enclosed enclosures s).meaning room = (do .ok (framed frames (← s.meaning inner))) := by
  induction hat generalizing room v with
  | nil =>
    refine ⟨room, [], v, rfl, rfl, h, rfl, fun s => ?_⟩
    show s.meaning room = _
    cases s.meaning room <;> rfl
  | cons hfirst hrest ih =>
    obtain ⟨middle, frame, v₁, rfl, hposition, hv₁, rfl, hfill⟩ := Enclosure.exists_frame hfirst h
    obtain ⟨inner, frames, v₀, rfl, hpositions, hv₀, rfl, hall⟩ := ih hv₁
    refine ⟨inner, frame :: frames, v₀, rfl, by rw [List.map_cons, hposition, hpositions], hv₀, rfl, fun s => ?_⟩
    refine (hfill _).trans ?_
    show (do .ok (frame.fill (← (enclosed _ s).meaning _))) = _
    rw [hall, bind_assoc]
    rfl

/-- What is read with one number at the end of the positions is read with every other, and what else stands there
has its own fault. -/
theorem Leads.contentMeaning_enclosed {place : Place} {content : Double → place.Content}
    (h : Leads place positions content) (hat : List.Forall₂ Enclosure.StandsAt enclosures positions) {x₀ : Double}
    (hopen : (enclosed enclosures s₀).contentMeaning room place = .ok (content x₀)) :
    ∃ inner, room = inner + enclosures.length ∧ ∀ s : Spelling, (enclosed enclosures s).contentMeaning room place =
      (do .ok (content (← numberOfValue (← s.meaning inner)))) := by
  induction h generalizing enclosures room with
  | number =>
    cases hat
    refine ⟨room, rfl, fun s => ?_⟩
    show (do numberOfValue (← s.meaning room)) = _
    cases s.meaning room with
    | error fault => rfl
    | ok v =>
      rw [ok_bind, ok_bind]
      cases numberOfValue v <;> rfl
  | @field k name inner put position positions content hput hposition h ih =>
    cases hat with
    | @cons e _ es _ hfirst hrest =>
      -- From the first node on everything is kept as a value, so the rest is about values and not by induction.
      have hkept := Enclosure.nodeMeaning_fill hfirst hput.ne_tagName hposition hopen
      have hopen' : (enclosed (e :: es) s₀).keptMeaning room = .ok (put (content x₀)) := (hkept _).symm.trans hopen
      obtain ⟨v, hv, hvalue⟩ := bind_eq_ok.mp hopen'
      obtain ⟨room', frames, v₀, hroom, hframes, -, rfl, hmeaning⟩ := exists_frames (.cons hfirst hrest) hv
      obtain ⟨-, hall⟩ := (Leads.field hput hposition h).contentOfValue_framed hframes hvalue
      refine ⟨room', hroom, fun s => ?_⟩
      calc (enclosed (e :: es) s).nodeMeaning room = (enclosed (e :: es) s).keptMeaning room := hkept _
        _ = (do Node.ofValue (framed frames (← s.meaning room'))) := by
          rw [Spelling.keptMeaning, hmeaning, bind_assoc]
          rfl
        _ = _ := by
          apply bind_congr
          intro v
          exact hall v
  | @statement positions content before after h ih =>
    cases hat with
    | @cons e _ es _ hfirst hrest =>
      generalize hindex : Position.item before.length = position at hfirst
      cases hfirst with
      | member => cases hindex
      | item blanks before' around after' =>
        have hlength := Position.item.inj hindex
        have hnodes : ∀ s, (enclosed (.items blanks before' around after' :: es) s).nodesMeaning room = (do
            let inner ← enter room
            (before' ++ (around, enclosed es s) :: after').mapM fun item => item.2.nodeMeaning inner) := fun s => rfl
        have hopen' := (hnodes s₀).symm.trans hopen
        obtain ⟨inner, henter, hopen'⟩ := bind_eq_ok.mp hopen'
        obtain ⟨hnode, hall⟩ := mapM_statement hlength.symm hopen'
        obtain ⟨inner', rfl, hcontent⟩ := ih hrest hnode
        obtain rfl := enter_eq_ok henter
        refine ⟨inner', rfl, fun s => ?_⟩
        refine (hnodes s).trans ?_
        rw [enter, ok_bind, hall]
        dsimp only
        have hinner := hcontent s
        rw [Spelling.contentMeaning] at hinner
        rw [hinner]
        simp only [bind_assoc, ok_bind]

end

/-! ### Records of a known kind -/

/-- A record that is read straight from the text is read with whatever its field holds, or has the fault of the
field. -/
theorem Puts.recordMeaning_fill {k : Kind} {name : String} {place : Place} {put : place.Content → Node}
    (hput : Puts k name place put) {e : Enclosure} {position : Position} (hat : e.StandsAt position)
    (hposition : position.OfField 0 k name) {s₀ : Spelling} {room : Nat} {content₀ : place.Content}
    (hopen : (e.fill s₀).recordMeaning k (room + 1) = .ok (put content₀)) :
    s₀.contentMeaning room place = .ok content₀ ∧
      ∀ s, (e.fill s).recordMeaning k (room + 1) = (do .ok (put (← s.contentMeaning room place))) := by
  cases hat with
  | @member label name' named blanks before after =>
    obtain rfl : name' = name := by cases hposition; rfl
    rw [Enclosure.fill, Spelling.recordMeaning_member named] at hopen
    obtain ⟨draft, hdraft, hopen⟩ := bind_eq_ok.mp hopen
    obtain ⟨hcontent, hall⟩ := hput.fillWith (Draft.respects_foldMembers room after) hopen
    refine ⟨hcontent, fun s => ?_⟩
    rw [Enclosure.fill, Spelling.recordMeaning_member named, hdraft, ok_bind]
    exact hall fun place => s.contentMeaning room place
  | item blanks before around after =>
    obtain ⟨names, names', hfields, hlength⟩ : ∃ names names', k.fields = names ++ name :: names' ∧
        before.length = names.length := by
      generalize hindex : Position.item before.length = position at hposition
      cases hposition with
      | member => cases hindex
      | item names names' h => exact ⟨names, names', h, (Position.item.inj hindex).trans (Nat.zero_add _)⟩
    have hrecord : ∀ s, ((Enclosure.items blanks before around after).fill s).recordMeaning k (room + 1) = (do
        let draft ← Spelling.addItems room k 0 (.blank k) names before
        let last ← Spelling.addItems room k (0 + before.length) draft (name :: names') ((around, s) :: after)
        last.finish) := by
      intro s
      rw [Enclosure.fill, Spelling.recordMeaning, enter, ok_bind, hfields, Draft.addItems_append room k hlength,
        bind_assoc]
    rw [hrecord] at hopen
    obtain ⟨draft, hdraft, hopen⟩ := bind_eq_ok.mp hopen
    cases hslot : draft.slot name with
    | unknown =>
      rw [Spelling.addItems, hslot] at hopen
      cases hopen
    | filled =>
      rw [Spelling.addItems, hslot] at hopen
      cases hopen
    | vacant place' fill =>
      have hadd : ∀ s, Spelling.addItems room k (0 + before.length) draft (name :: names') ((around, s) :: after) = (do
          let filled ← draft.fillWith name fun place => s.contentMeaning room place
          Spelling.addItems room k (0 + before.length + 1) filled names' after) :=
        fun s => Draft.addItems_cons hslot names' around s after
      rw [hadd, bind_assoc] at hopen
      obtain ⟨hcontent, hall⟩ := hput.fillWith (Draft.respects_addItems room k _ names' after) hopen
      refine ⟨hcontent, fun s => ?_⟩
      rw [hrecord, hdraft, ok_bind, hadd, bind_assoc]
      exact hall fun place => s.contentMeaning room place

/-! ### Texts -/

/-- A number stands at the end of some positions in a tree, which is a node or a record of a known kind. -/
inductive RootLeads : Option Kind → List Position → (Double → Node) → Prop where
  | node {positions : List Position} {tree : Double → Node} (h : Leads .node positions tree) :
    RootLeads none positions tree
  | record {k : Kind} {name : String} {inner : Place} {put : inner.Content → Node} {position : Position}
    {positions : List Position} {content : Double → inner.Content} (hput : Puts k name inner put)
    (hposition : position.OfField 0 k name) (h : Leads inner positions content) :
    RootLeads (some k) (position :: positions) fun x => put (content x)

/-- Loads a text as a node, or as a record of a known kind. -/
def Node.loadAs : Option Kind → String → Except Fault Node
  | none => Node.load
  | some k => Node.loadRecord k

/-- A place for a number in a text: the brackets around it and the tree that is loaded with each number there. All
else in the text is valid, so it loads with some number in the place. -/
structure NumberSite where
  root : Option Kind
  around : Around
  enclosures : List Enclosure
  positions : List Position
  tree : Double → Node
  standsAt : List.Forall₂ Enclosure.StandsAt enclosures positions
  leads : RootLeads root positions tree
  isOpen : ∃ s x, Node.loadAs root ((enclosed enclosures s).textIn around) = .ok (tree x)

namespace NumberSite

def text (site : NumberSite) (s : Spelling) : String := (enclosed site.enclosures s).textIn site.around

def load (site : NumberSite) (s : Spelling) : Except Fault Node := Node.loadAs site.root (site.text s)

/-- What stands in the place is read as a value and then judged as a number; its fault is that of the text, and its
number is that of the tree. -/
theorem load_eq (site : NumberSite) : ∃ room, room + site.enclosures.length = maxDepth ∧
    ∀ s, site.load s = (do .ok (site.tree (← numberOfValue (← s.meaning room)))) := by
  obtain ⟨root, around, enclosures, positions, tree, hat, hleads, s₀, x₀, hopen⟩ := site
  cases hleads with
  | node h =>
    have hload : ∀ s, Node.loadAs none ((enclosed enclosures s).textIn around) =
        (enclosed enclosures s).contentMeaning maxDepth .node := fun s => Node.load_textIn around _
    rw [hload] at hopen
    obtain ⟨room, hroom, hall⟩ := h.contentMeaning_enclosed hat hopen
    exact ⟨room, hroom.symm, fun s => (hload s).trans (hall s)⟩
  | @record k name inner put position positions content hput hposition h =>
    cases hat with
    | @cons e _ es _ hfirst hrest =>
      have hload : ∀ s, Node.loadAs (some k) ((enclosed (e :: es) s).textIn around) =
          (e.fill (enclosed es s)).recordMeaning k 127 := fun s => Node.loadRecord_textIn k around _
      rw [hload] at hopen
      obtain ⟨hcontent, hrecord⟩ := hput.recordMeaning_fill hfirst hposition hopen
      obtain ⟨room, hroom, hall⟩ := h.contentMeaning_enclosed hrest hcontent
      refine ⟨room, congrArg Nat.succ hroom.symm, fun s => ?_⟩
      refine (hload s).trans ?_
      rw [hrecord, hall]
      simp only [bind_assoc, ok_bind]

end NumberSite

end SyntaxTree
