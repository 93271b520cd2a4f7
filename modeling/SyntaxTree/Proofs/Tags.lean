import SyntaxTree.Proofs.FitsNode

/-!
Two ways to read a node. Read straight from the text, a node has its tag judged as a text; kept as a value, it
may also have the index of a kind for a tag. Nothing else tells the two apart: how much room there is beyond
what the brackets need makes no difference, and the members other than the tag are kept in both.
-/

namespace SyntaxTree

open Json

namespace Json

theorem toOption_eq_some {α : Type} {o : Except Fault α} {a : α} : o.toOption = some a ↔ o = .ok a := by
  cases o <;> simp [Except.toOption]

namespace Spelling

/-! ### Room to spare -/

theorem itemsMeaning_of_depth_le {items : List (Around × Spelling)}
    (hitems : ∀ item ∈ items, ∀ {room room' : Nat}, item.2.depth ≤ room → item.2.depth ≤ room' →
      item.2.meaning room = item.2.meaning room')
    {room room' : Nat} (h : itemsDepth items ≤ room) (h' : itemsDepth items ≤ room') :
    itemsMeaning room items = itemsMeaning room' items := by
  induction items with
  | nil => rfl
  | cons item items ih =>
    rw [itemsDepth, Nat.max_le] at h h'
    rw [itemsMeaning, itemsMeaning, hitems item List.mem_cons_self h.1 h'.1,
      ih (fun item hitem => hitems item (List.mem_cons_of_mem _ hitem)) h.2 h'.2]

theorem membersMeaning_of_depth_le {members : List (Label × Spelling)}
    (hmembers : ∀ member ∈ members, ∀ {room room' : Nat}, member.2.depth ≤ room → member.2.depth ≤ room' →
      member.2.meaning room = member.2.meaning room')
    {room room' : Nat} (h : membersDepth members ≤ room) (h' : membersDepth members ≤ room') :
    membersMeaning room members = membersMeaning room' members := by
  induction members with
  | nil => rfl
  | cons member members ih =>
    rw [membersDepth, Nat.max_le] at h h'
    rw [membersMeaning, membersMeaning, hmembers member List.mem_cons_self h.1 h'.1,
      ih (fun member hmember => hmembers member (List.mem_cons_of_mem _ hmember)) h.2 h'.2]

/-- Room beyond what the brackets of a spelling need does not change what it means. -/
theorem meaning_of_depth_le {s : Spelling} {room room' : Nat} (h : s.depth ≤ room) (h' : s.depth ≤ room') :
    s.meaning room = s.meaning room' := by
  induction s using Spelling.induction generalizing room room' with
  | scalar s hs => rw [meaning_of_isScalar hs room, meaning_of_isScalar hs room']
  | array blanks items ih =>
    obtain ⟨inner, rfl⟩ := exists_room h
    obtain ⟨inner', rfl⟩ := exists_room h'
    have hitems : itemsMeaning inner items = itemsMeaning inner' items :=
      itemsMeaning_of_depth_le ih (Nat.le_of_succ_le_succ h) (Nat.le_of_succ_le_succ h')
    rw [meaning, meaning, hitems]
  | object blanks members ih =>
    obtain ⟨inner, rfl⟩ := exists_room h
    obtain ⟨inner', rfl⟩ := exists_room h'
    have hmembers : membersMeaning inner members = membersMeaning inner' members :=
      membersMeaning_of_depth_le ih (Nat.le_of_succ_le_succ h) (Nat.le_of_succ_le_succ h')
    rw [meaning, meaning, hmembers]

/-! ### Tags -/

def isNumber : Spelling → Bool
  | number _ => true
  | _ => false

/-- Whether a member is a tag that is spelled as a number. -/
def isNumberTag (member : Label × Spelling) : Bool :=
  member.1.name.meaning = .ok Node.tagName && member.2.isNumber

/-- Whether a node has a tag that is spelled as a number. -/
def hasNumberTag : Spelling → Bool
  | array _ ((_, tag) :: _) => tag.isNumber
  | object _ members =>
    members.any isNumberTag
  | _ => false

theorem tagMeaning_number_ne_ok (n : NumberSpelling) (k : Kind) : (number n).tagMeaning ≠ .ok k := by
  intro h
  obtain ⟨text, htext, -⟩ := bind_eq_ok.mp h
  rw [textMeaning_of_isScalar rfl] at htext
  obtain ⟨v, hv, htext⟩ := bind_eq_ok.mp htext
  rw [meaning, NumberText.value] at hv
  split at hv
  · cases hv
    cases htext
  · rw [NumberText.float] at hv
    split at hv
    · cases hv
      cases htext
    · cases hv

theorem tagMeaning_string (string : StringSpelling) :
    (Spelling.string string).tagMeaning = (do kindOfName (← string.meaning)) := by
  rw [tagMeaning, textMeaning_of_isScalar rfl, meaning, bind_assoc, bind_assoc]
  rfl

/-- A tag is judged as a text just as it is judged as a value, unless it is a number. -/
theorem tagMeaning_eq_ok_iff {s : Spelling} {k : Kind} (room : Nat) :
    s.tagMeaning = .ok k ↔ s.isNumber = false ∧ ∃ v, s.meaning room = .ok v ∧ kindOfValue v = .ok k := by
  cases s with
  | number n =>
    constructor
    · exact fun h => absurd h (tagMeaning_number_ne_ok n k)
    · rintro ⟨h, -⟩
      cases h
  | string string =>
    rw [tagMeaning_string, meaning, bind_eq_ok]
    constructor
    · rintro ⟨name, hname, hk⟩
      exact ⟨rfl, .string name, by rw [hname, ok_bind], hk⟩
    · rintro ⟨-, v, hv, hk⟩
      obtain ⟨name, hname, hv⟩ := bind_eq_ok.mp hv
      cases hv
      exact ⟨name, hname, hk⟩
  | null =>
    refine ⟨fun h => ?_, ?_⟩
    · cases h
    · rintro ⟨-, v, hv, hk⟩
      cases hv
      cases hk
  | bool value =>
    refine ⟨fun h => ?_, ?_⟩
    · cases h
    · rintro ⟨-, v, hv, hk⟩
      cases hv
      cases hk
  | array blanks items =>
    refine ⟨fun h => ?_, ?_⟩
    · cases h
    · rintro ⟨-, v, hv, hk⟩
      rw [meaning_array] at hv
      obtain ⟨inner, -, hv⟩ := bind_eq_ok.mp hv
      obtain ⟨values, -, hv⟩ := bind_eq_ok.mp hv
      cases hv
      cases hk
  | object blanks members =>
    refine ⟨fun h => ?_, ?_⟩
    · cases h
    · rintro ⟨-, v, hv, hk⟩
      rw [meaning_object] at hv
      obtain ⟨inner, -, hv⟩ := bind_eq_ok.mp hv
      obtain ⟨values, -, hv⟩ := bind_eq_ok.mp hv
      cases hv
      cases hk

/-! ### Members -/

def untagged (members : List (String × Value)) : List (String × Value) :=
  members.filter fun member => member.1 ≠ Node.tagName

theorem untagged_tag (v : Value) (members : List (String × Value)) :
    untagged ((Node.tagName, v) :: members) = untagged members := by
  rw [untagged, List.filter_cons_of_neg (by simp), untagged]

theorem untagged_other {name : String} (hname : name ≠ Node.tagName) (v : Value) (members : List (String × Value)) :
    untagged ((name, v) :: members) = (name, v) :: untagged members := by
  rw [untagged, List.filter_cons_of_pos (by simpa using hname), untagged]

/-- No field has the name of the tag, so tags are passed over when the fields are filled in. -/
theorem fillMembers_untagged (draft : Draft) (members : List (String × Value)) :
    fillMembers draft (untagged members) = fillMembers draft members := by
  induction members generalizing draft with
  | nil => rfl
  | cons member members ih =>
    obtain ⟨name, v⟩ := member
    by_cases hname : name = Node.tagName
    · subst hname
      rw [untagged_tag, fillMembers, Node.slot_tagName]
      exact ih draft
    · rw [untagged_other hname, fillMembers, fillMembers]
      cases draft.slot name with
      | unknown => exact ih draft
      | filled => rfl
      | vacant place fill =>
        dsimp only
        congr 1
        funext content
        exact ih (fill content)

theorem ofMembers_untagged (k : Kind) (members : List (String × Value)) :
    Node.ofMembers k (untagged members) = Node.ofMembers k members := by
  rw [Node.ofMembers, fillMembers_untagged, Node.ofMembers]

theorem foldMembers_member {σ : Type} (f : σ → String → Spelling → Except Fault σ) (state state' : σ) (label : Label)
    (s : Spelling) (members : List (Label × Spelling)) :
    foldMembers f state ((label, s) :: members) = .ok state' ↔
      ∃ name, label.name.meaning = .ok name ∧ ∃ state₁, f state name s = .ok state₁ ∧
        foldMembers f state₁ members = .ok state' := by
  simp only [foldMembers_label, bind_eq_ok]

theorem membersMeaning_cons (room : Nat) (label : Label) (s : Spelling) (members : List (Label × Spelling))
    (values : List (String × Value)) :
    membersMeaning room ((label, s) :: members) = .ok values ↔
      ∃ name, label.name.meaning = .ok name ∧ ∃ v, s.meaning room = .ok v ∧
        ∃ values', membersMeaning room members = .ok values' ∧ (name, v) :: values' = values := by
  rw [membersMeaning]
  simp only [bind_eq_ok, Except.ok.injEq]

/-- The members of a node have the tag `k` among their values and leave `collected` besides, and no tag among them
is a number; `parts` came before. -/
def Collects (room : Nat) (parts : NodeParts) (members : List (Label × Spelling)) (k : Kind)
    (collected : List (String × Value)) : Prop :=
  members.any isNumberTag = false ∧ ∃ values, membersMeaning room members = .ok values ∧
    tagOfMembers parts.tag? values = .ok k ∧ (untagged values).reverse ++ parts.members = collected

section

variable {room : Nat} {parts : NodeParts} {label : Label} {s : Spelling} {members : List (Label × Spelling)} {k : Kind}
  {collected : List (String × Value)}

/-- A tag is judged at once, as it would be judged among the values. -/
theorem collects_tag (hname : label.name.meaning = .ok Node.tagName) :
    Collects room parts ((label, s) :: members) k collected ↔
      ∃ parts', s.addMember room parts Node.tagName = .ok parts' ∧ Collects room parts' members k collected := by
  rw [addMember, if_pos rfl]
  constructor
  · rintro ⟨hany, all, hall, htag, hcollected⟩
    obtain ⟨hnumber, hnumbers⟩ := Bool.or_eq_false_iff.mp (List.any_cons.symm.trans hany)
    obtain ⟨name, hname', v, hv, values, hvalues, rfl⟩ := (membersMeaning_cons _ _ _ _ _).mp hall
    rw [hname] at hname'
    cases hname'
    rw [tagOfMembers, if_pos rfl] at htag
    by_cases hfirst : parts.tag?.isSome = true
    · rw [if_pos hfirst] at htag
      cases htag
    · rw [if_neg hfirst] at htag
      obtain ⟨k', hk', htag⟩ := bind_eq_ok.mp htag
      have hnotNumber : s.isNumber = false := by simpa [isNumberTag, hname] using hnumber
      rw [untagged_tag] at hcollected
      rw [if_neg hfirst, (tagMeaning_eq_ok_iff room).mpr ⟨hnotNumber, v, hv, hk'⟩, ok_bind]
      exact ⟨_, rfl, hnumbers, values, hvalues, htag, hcollected⟩
  · rintro ⟨parts', hadd, hnumbers, values, hvalues, htag, hcollected⟩
    by_cases hfirst : parts.tag?.isSome = true
    · rw [if_pos hfirst] at hadd
      cases hadd
    · rw [if_neg hfirst] at hadd
      obtain ⟨k', hk', hadd⟩ := bind_eq_ok.mp hadd
      cases hadd
      obtain ⟨hnumber, v, hv, hkv⟩ := (tagMeaning_eq_ok_iff room).mp hk'
      refine ⟨?_, (Node.tagName, v) :: values, ?_, ?_, ?_⟩
      · rw [List.any_cons, hnumbers, Bool.or_false, isNumberTag, hnumber, Bool.and_false]
      · exact (membersMeaning_cons _ _ _ _ _).mpr ⟨_, hname, v, hv, values, hvalues, rfl⟩
      · rw [tagOfMembers, if_pos rfl, if_neg hfirst, hkv, ok_bind]
        exact htag
      · rw [untagged_tag]
        exact hcollected

theorem collects_other {name : String} (hname : label.name.meaning = .ok name) (hother : name ≠ Node.tagName) :
    Collects room parts ((label, s) :: members) k collected ↔
      ∃ parts', s.addMember room parts name = .ok parts' ∧ Collects room parts' members k collected := by
  rw [addMember, if_neg hother]
  constructor
  · rintro ⟨hany, all, hall, htag, hcollected⟩
    obtain ⟨-, hnumbers⟩ := Bool.or_eq_false_iff.mp (List.any_cons.symm.trans hany)
    obtain ⟨name', hname', v, hv, values, hvalues, rfl⟩ := (membersMeaning_cons _ _ _ _ _).mp hall
    rw [hname] at hname'
    cases hname'
    rw [tagOfMembers, if_neg hother] at htag
    rw [untagged_other hother, List.reverse_cons, List.append_assoc] at hcollected
    rw [hv, ok_bind]
    exact ⟨_, rfl, hnumbers, values, hvalues, htag, hcollected⟩
  · rintro ⟨parts', hadd, hnumbers, values, hvalues, htag, hcollected⟩
    obtain ⟨v, hv, hadd⟩ := bind_eq_ok.mp hadd
    cases hadd
    refine ⟨?_, (name, v) :: values, ?_, ?_, ?_⟩
    · have hnotTag : isNumberTag (label, s) = false := by simp [isNumberTag, hname, hother]
      rw [List.any_cons, hnumbers, Bool.or_false, hnotTag]
    · exact (membersMeaning_cons _ _ _ _ _).mpr ⟨_, hname, v, hv, values, hvalues, rfl⟩
    · rw [tagOfMembers, if_neg hother]
      exact htag
    · rw [untagged_other hother, List.reverse_cons, List.append_assoc]
      exact hcollected

end

/-- Collecting the members of a node straight from the text finds the tag that is found among their values,
and keeps the values of the others, unless some tag is a number. -/
theorem foldMembers_addMember_iff (room : Nat) (members : List (Label × Spelling)) (parts : NodeParts) (k : Kind)
    (collected : List (String × Value)) :
    foldMembers (addMember room) parts members = .ok ⟨some k, collected⟩ ↔
      Collects room parts members k collected := by
  induction members generalizing parts with
  | nil =>
    have hnil : foldMembers (addMember room) parts [] = .ok parts := rfl
    obtain ⟨tag?, kept⟩ := parts
    rw [hnil]
    cases tag? with
    | none => simp [Collects, membersMeaning, tagOfMembers, Fault.missing]
    | some k' => simp [Collects, membersMeaning, tagOfMembers, untagged]
  | cons member members ih =>
    obtain ⟨label, s⟩ := member
    rw [foldMembers_member]
    simp only [ih]
    constructor
    · rintro ⟨name, hname, hrest⟩
      by_cases htag : name = Node.tagName
      · subst htag
        exact (collects_tag hname).mpr hrest
      · exact (collects_other hname htag).mpr hrest
    · intro hcollects
      obtain ⟨-, values, hvalues, -⟩ := id hcollects
      obtain ⟨name, hname, -⟩ := (membersMeaning_cons _ _ _ _ _).mp hvalues
      refine ⟨name, hname, ?_⟩
      by_cases htag : name = Node.tagName
      · subst htag
        exact (collects_tag hname).mp hcollects
      · exact (collects_other hname htag).mp hcollects

/-! ### Nodes -/

theorem ofValue_of_depth {v : Value} (h : v.depth = 0) : Node.ofValue v = .error (.mismatch v.found .node) := by
  cases v with
  | array items => cases h
  | object members => cases h
  | null => simp [Node.ofValue, contentOfValue]
  | bool _ => simp [Node.ofValue, contentOfValue]
  | integer _ => simp [Node.ofValue, contentOfValue]
  | float _ => simp [Node.ofValue, contentOfValue]
  | string _ => simp [Node.ofValue, contentOfValue]

theorem nodeMeaning_array_eq_ok_iff {blanks : Blanks} {items : List (Around × Spelling)} {room : Nat} {node : Node} :
    (array blanks items).nodeMeaning room = .ok node ↔ (array blanks items).hasNumberTag = false ∧
      ∃ v, (array blanks items).meaning room = .ok v ∧ Node.ofValue v = .ok node := by
  rw [nodeMeaning, meaning_array, bind_eq_ok]
  cases items with
  | nil =>
    constructor
    · rintro ⟨inner, -, h⟩
      cases h
    · rintro ⟨-, v, hv, h⟩
      obtain ⟨inner, -, hv⟩ := bind_eq_ok.mp hv
      cases hv
      rw [Node.ofValue, contentOfValue] at h
      cases h
  | cons item items =>
    obtain ⟨around, tag⟩ := item
    constructor
    · rintro ⟨inner, hroom, h⟩
      obtain ⟨k, hk, h⟩ := bind_eq_ok.mp h
      obtain ⟨values, hvalues, h⟩ := bind_eq_ok.mp h
      obtain ⟨hnumber, v, hv, hkv⟩ := (tagMeaning_eq_ok_iff inner).mp hk
      refine ⟨hnumber, .array (v :: values), ?_, ?_⟩
      · rw [hroom, ok_bind, itemsMeaning, hv, ok_bind, hvalues]
        rfl
      · rw [Node.ofValue_array_cons, hkv, ok_bind]
        exact h
    · rintro ⟨hnumber, v, hv, h⟩
      obtain ⟨inner, hroom, hv⟩ := bind_eq_ok.mp hv
      obtain ⟨all, hall, hv⟩ := bind_eq_ok.mp hv
      obtain ⟨tagValue, htag, hall⟩ := bind_eq_ok.mp hall
      obtain ⟨values, hvalues, hall⟩ := bind_eq_ok.mp hall
      cases hall
      cases hv
      rw [Node.ofValue_array_cons] at h
      obtain ⟨k, hk, h⟩ := bind_eq_ok.mp h
      refine ⟨inner, hroom, ?_⟩
      dsimp only
      rw [(tagMeaning_eq_ok_iff inner).mpr ⟨hnumber, tagValue, htag, hk⟩, ok_bind, hvalues, ok_bind]
      exact h

theorem nodeMeaning_object_eq_ok_iff {blanks : Blanks} {members : List (Label × Spelling)} {room : Nat} {node : Node} :
    (object blanks members).nodeMeaning room = .ok node ↔ (object blanks members).hasNumberTag = false ∧
      ∃ v, (object blanks members).meaning room = .ok v ∧ Node.ofValue v = .ok node := by
  rw [nodeMeaning, meaning_object, bind_eq_ok]
  constructor
  · rintro ⟨inner, hroom, h⟩
    obtain ⟨⟨tag?, collected⟩, hparts, h⟩ := bind_eq_ok.mp h
    obtain ⟨k, hk, h⟩ := bind_eq_ok.mp h
    have htag : tag? = some k := Draft.require_eq_ok hk
    subst htag
    obtain ⟨hnumbers, values, hvalues, htag, rfl⟩ := (foldMembers_addMember_iff inner members {} k _).mp hparts
    refine ⟨hnumbers, .object values, ?_, ?_⟩
    · rw [hroom, ok_bind, hvalues]
      rfl
    · rw [Node.ofValue_object, htag, ok_bind, ← ofMembers_untagged]
      rwa [List.append_nil, List.reverse_reverse] at h
  · rintro ⟨hnumbers, v, hv, h⟩
    obtain ⟨inner, hroom, hv⟩ := bind_eq_ok.mp hv
    obtain ⟨values, hvalues, hv⟩ := bind_eq_ok.mp hv
    cases hv
    rw [Node.ofValue_object] at h
    obtain ⟨k, htag, h⟩ := bind_eq_ok.mp h
    refine ⟨inner, hroom, ?_⟩
    have hparts := (foldMembers_addMember_iff inner members {} k _).mpr ⟨hnumbers, values, hvalues, htag, rfl⟩
    rw [hparts, ok_bind]
    rw [← ofMembers_untagged] at h
    rw [List.append_nil, List.reverse_reverse]
    exact h

/-- A node that is read straight from the text is the node that is made of its value, unless its tag is a
number. -/
theorem nodeMeaning_eq_ok_iff {s : Spelling} {room : Nat} {node : Node} :
    s.nodeMeaning room = .ok node ↔
      s.hasNumberTag = false ∧ ∃ v, s.meaning room = .ok v ∧ Node.ofValue v = .ok node := by
  rcases s.scalar_or_brackets with hs | ⟨blanks, items, rfl⟩ | ⟨blanks, members, rfl⟩
  · rw [nodeMeaning_of_isScalar hs]
    constructor
    · intro h
      obtain ⟨v, -, h⟩ := bind_eq_ok.mp h
      cases h
    · rintro ⟨-, v, hv, h⟩
      rw [meaning_of_isScalar hs] at hv
      have hdepth : v.depth = 0 := Nat.le_zero.mp (fits_of_meaning hv).2.depth_le
      rw [ofValue_of_depth hdepth] at h
      cases h
  · exact nodeMeaning_array_eq_ok_iff
  · exact nodeMeaning_object_eq_ok_iff

/-- The node that is made of a spelling once its value is known. -/
def keptMeaning (room : Nat) (s : Spelling) : Except Fault Node := do Node.ofValue (← s.meaning room)

theorem toOption_nodeMeaning (s : Spelling) (room : Nat) :
    (s.nodeMeaning room).toOption = if s.hasNumberTag then none else (s.keptMeaning room).toOption := by
  ext node
  have hstraight : s.nodeMeaning room = .ok node ↔ s.hasNumberTag = false ∧ s.keptMeaning room = .ok node := by
    rw [nodeMeaning_eq_ok_iff, keptMeaning, bind_eq_ok]
  rw [toOption_eq_some, hstraight]
  cases s.hasNumberTag <;> simp [toOption_eq_some]

/-- With room to spare it does not matter how much there is. -/
theorem keptMeaning_of_depth_le {s : Spelling} {room room' : Nat} (h : s.depth ≤ room) (h' : s.depth ≤ room') :
    s.keptMeaning room = s.keptMeaning room' := by
  rw [keptMeaning, keptMeaning, meaning_of_depth_le h h']

end Spelling

end Json

end SyntaxTree
