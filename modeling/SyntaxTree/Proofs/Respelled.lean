import SyntaxTree.Proofs.Escapes
import SyntaxTree.Proofs.RoundTrip
import SyntaxTree.Proofs.Tags

/-!
Texts with their strings spelled anew. Each string in the text of a tree, the tags and the names of members among
them, may be spelled in any way that stands for the same text, and the tree that loads is the same. If half a
surrogate pair stands alone in one of the strings, the text is malformed and no tree loads, whatever the others are.
-/

namespace SyntaxTree

open Json

namespace Json

section

variable {α β : Type} {broken : Prop}

/-- An outcome that is `a`, or the fault of a malformed text if the text may be broken. -/
def Gives (broken : Prop) (a : α) (o : Except Fault α) : Prop := o = .ok a ∨ broken ∧ o = .error .malformed

theorem gives_ok (a : α) : Gives broken a (.ok a) := .inl rfl

theorem Gives.bind {a : α} {b : β} {o : Except Fault α} {f : α → Except Fault β} (ho : Gives broken a o)
    (hf : Gives broken b (f a)) : Gives broken b (o >>= f) := by
  rcases ho with rfl | ⟨hbroken, rfl⟩
  · exact hf
  · exact .inr ⟨hbroken, rfl⟩

theorem gives_false_iff {a : α} {o : Except Fault α} : Gives False a o ↔ o = .ok a := by simp [Gives]

end

namespace Value

mutual

/-- A value written without blanks and with its members in their order, its strings and the names of its members each
spelled in a way that `R` allows for the text. -/
inductive WrittenWith (R : String → StringSpelling → Prop) : Value → Spelling → Prop where
  | scalar {v : Value} (hdepth : v.depth = 0) (hstring : ∀ text, v ≠ .string text) : WrittenWith R v v.spelling
  | string {text : String} {s : StringSpelling} (h : R text s) : WrittenWith R (.string text) (.string s)
  | array {items : List Value} {spelled : List (Around × Spelling)} (h : ItemsWrittenWith R items spelled) :
    WrittenWith R (.array items) (.array {} spelled)
  | object {members : List (String × Value)} {spelled : List (Label × Spelling)}
    (h : MembersWrittenWith R members spelled) : WrittenWith R (.object members) (.object {} spelled)

inductive ItemsWrittenWith (R : String → StringSpelling → Prop) : List Value → List (Around × Spelling) → Prop where
  | nil : ItemsWrittenWith R [] []
  | cons {v : Value} {items : List Value} {s : Spelling} {spelled : List (Around × Spelling)}
    (h : WrittenWith R v s) (hrest : ItemsWrittenWith R items spelled) :
    ItemsWrittenWith R (v :: items) (({}, s) :: spelled)

inductive MembersWrittenWith (R : String → StringSpelling → Prop) :
    List (String × Value) → List (Label × Spelling) → Prop where
  | nil : MembersWrittenWith R [] []
  | cons {name : String} {v : Value} {members : List (String × Value)} {string : StringSpelling} {s : Spelling}
    {spelled : List (Label × Spelling)} (hname : R name string) (h : WrittenWith R v s)
    (hrest : MembersWrittenWith R members spelled) :
    MembersWrittenWith R ((name, v) :: members) (({ name := string }, s) :: spelled)

end

/-- The compact text of a value spells each string in a way that stands for its text. -/
theorem writtenWith_spelling (v : Value) : v.WrittenWith (fun text s => s.Spells text) v.spelling := by
  have hspells : ∀ text, (spelledString text).Spells text :=
    fun text => StringSpelling.meaning_eq_ok_iff.mp (meaning_spelledString text)
  induction v using Value.induction with
  | array items ih =>
    have hitems : ItemsWrittenWith (fun text s => s.Spells text) items (itemsSpelling items) := by
      induction items with
      | nil => exact .nil
      | cons item items ih' =>
        exact .cons (ih item List.mem_cons_self) (ih' fun item hitem => ih item (List.mem_cons_of_mem _ hitem))
    exact .array hitems
  | object members ih =>
    have hmembers : MembersWrittenWith (fun text s => s.Spells text) members (membersSpelling members) := by
      induction members with
      | nil => exact .nil
      | cons member members ih' =>
        exact .cons (hspells member.1) (ih member List.mem_cons_self)
          (ih' fun member hmember => ih member (List.mem_cons_of_mem _ hmember))
    exact .object hmembers
  | null => exact .scalar rfl (by simp)
  | bool value => exact .scalar rfl (by simp)
  | integer n => exact .scalar rfl (by simp)
  | float x => exact .scalar rfl (by simp)
  | string text => exact .string (hspells text)

end Value

namespace Spelling

/-! ### What is read -/

section

variable {R : String → StringSpelling → Prop} {broken : Prop}

/-- Where there is room for it, the value is read as itself, unless one of its strings is broken. -/
def ReadsItself (R : String → StringSpelling → Prop) (broken : Prop) (v : Value) : Prop :=
  ∀ {s : Spelling} {room : Nat}, v.WrittenWith R s → v.Fits room → Gives broken v (s.meaning room)

theorem gives_itemsMeaning {items : List Value} {spelled : List (Around × Spelling)}
    (hreads : ∀ item ∈ items, ReadsItself R broken item) (h : Value.ItemsWrittenWith R items spelled)
    {room : Nat} (hfits : ∀ item ∈ items, item.Fits room) :
    Gives broken items (itemsMeaning room spelled) := by
  induction items generalizing spelled with
  | nil =>
    cases h
    exact gives_ok []
  | cons item items ih =>
    cases h with
    | cons hitem hrest =>
      obtain ⟨hfirst, hothers⟩ := List.forall_mem_cons.mp hfits
      rw [itemsMeaning]
      exact (hreads item List.mem_cons_self hitem hfirst).bind
        ((ih (fun item hmem => hreads item (List.mem_cons_of_mem _ hmem)) hrest hothers).bind (gives_ok _))

theorem gives_membersMeaning (hR : ∀ text s, R text s → Gives broken text s.meaning)
    {members : List (String × Value)} {spelled : List (Label × Spelling)}
    (hreads : ∀ member ∈ members, ReadsItself R broken member.2) (h : Value.MembersWrittenWith R members spelled)
    {room : Nat} (hfits : ∀ member ∈ members, member.2.Fits room) :
    Gives broken members (membersMeaning room spelled) := by
  induction members generalizing spelled with
  | nil =>
    cases h
    exact gives_ok []
  | cons member members ih =>
    cases h with
    | cons hname hv hrest =>
      obtain ⟨hfirst, hothers⟩ := List.forall_mem_cons.mp hfits
      rw [membersMeaning]
      exact (hR _ _ hname).bind ((hreads _ List.mem_cons_self hv hfirst).bind
        ((ih (fun member hmem => hreads member (List.mem_cons_of_mem _ hmem)) hrest hothers).bind (gives_ok _)))

theorem gives_meaning_scalar {v : Value} (hdepth : v.depth = 0) {room : Nat} (hfits : v.Fits room) :
    Gives broken v (v.spelling.meaning room) := by
  rw [v.meaning_spelling hfits.readable, hdepth, within_zero]
  exact gives_ok v

theorem readsItself (hR : ∀ text s, R text s → Gives broken text s.meaning) (v : Value) : ReadsItself R broken v := by
  induction v using Value.induction with
  | array items ih =>
    intro s room h hfits
    obtain ⟨inner, rfl⟩ := exists_room hfits.depth_le
    cases h with
    | scalar hdepth => cases hdepth
    | array h =>
      rw [meaning]
      exact (gives_itemsMeaning ih h (Value.fits_array.mp hfits)).bind (gives_ok _)
  | object members ih =>
    intro s room h hfits
    obtain ⟨inner, rfl⟩ := exists_room hfits.depth_le
    cases h with
    | scalar hdepth => cases hdepth
    | object h =>
      rw [meaning]
      exact (gives_membersMeaning hR ih h (Value.fits_object.mp hfits)).bind (gives_ok _)
  | string text =>
    intro s room h hfits
    cases h with
    | scalar _ hstring => exact absurd rfl (hstring text)
    | string h =>
      rw [meaning]
      exact (hR _ _ h).bind (gives_ok _)
  | null => intro s room h hfits; cases h with | scalar hdepth => exact gives_meaning_scalar hdepth hfits
  | bool value => intro s room h hfits; cases h with | scalar hdepth => exact gives_meaning_scalar hdepth hfits
  | integer n => intro s room h hfits; cases h with | scalar hdepth => exact gives_meaning_scalar hdepth hfits
  | float x => intro s room h hfits; cases h with | scalar hdepth => exact gives_meaning_scalar hdepth hfits

/-- Members other than the tag are kept, unless one of the strings is broken. -/
theorem gives_foldMembers (hR : ∀ text s, R text s → Gives broken text s.meaning)
    {members : List (String × Value)} (hname : ∀ member ∈ members, member.1 ≠ Node.tagName)
    {spelled : List (Label × Spelling)} (h : Value.MembersWrittenWith R members spelled) {room : Nat}
    (hfits : ∀ member ∈ members, member.2.Fits room) (parts : NodeParts) :
    Gives broken { parts with members := members.reverse ++ parts.members }
      (foldMembers (addMember room) parts spelled) := by
  induction members generalizing spelled parts with
  | nil =>
    cases h
    exact gives_ok parts
  | cons member members ih =>
    cases h with
    | @cons name v _ string s spelled hnamed hv hrest =>
      obtain ⟨hfirst, hothers⟩ := List.forall_mem_cons.mp hfits
      have hadd : Gives broken { parts with members := (name, v) :: parts.members } (s.addMember room parts name) := by
        rw [addMember, if_neg (hname _ List.mem_cons_self)]
        exact (readsItself hR v hv hfirst).bind (gives_ok _)
      have hkept := ih (fun member hmem => hname member (List.mem_cons_of_mem _ hmem)) hrest hothers
        { parts with members := (name, v) :: parts.members }
      rw [foldMembers_label, List.reverse_cons, List.append_assoc]
      exact (hR _ _ hnamed).bind (hadd.bind hkept)

/-- A tree with room for its brackets is read as itself, unless one of its strings is broken. -/
theorem gives_nodeMeaning (hR : ∀ text s, R text s → Gives broken text s.meaning) {node : Node} {s : Spelling}
    (h : node.toValue.WrittenWith R s) {room : Nat} (hroom : node.jsonDepth ≤ room) :
    Gives broken node.canonical (s.nodeMeaning room) := by
  have hfits : node.toValue.Fits room := ⟨node.depth_toValue.trans_le hroom, node.isReadable_toValue⟩
  obtain ⟨inner, rfl⟩ := exists_room hfits.depth_le
  have hmembers := List.forall_mem_cons.mp (Value.fits_object.mp hfits)
  rw [Node.toValue, Node.tagged] at h
  cases h with
  | scalar hdepth => cases hdepth
  | object h =>
    cases h with
    | @cons _ _ _ string tag spelled hnamed htag hrest =>
      cases htag with
      | scalar _ hstring => exact absurd rfl (hstring _)
      | @string _ name hname =>
        -- the tag is judged before the members behind it are read, so it is the first step of the fold
        have hadd : Gives broken { tag? := some node.kind }
            ((Spelling.string name).addMember inner {} Node.tagName) := by
          rw [addMember, if_pos rfl, if_neg (by simp), tagMeaning_string, bind_assoc]
          refine (hR _ _ hname).bind ?_
          rw [Node.kindOfName_name]
          exact gives_ok _
        have hkept := gives_foldMembers hR (Node.ne_tagName_of_mem_members node) hrest hmembers.2
          { tag? := some node.kind }
        rw [nodeMeaning, enter, ok_bind, foldMembers_label, bind_assoc]
        refine (hR _ _ hnamed).bind ?_
        rw [bind_assoc]
        refine hadd.bind (hkept.bind ?_)
        rw [List.append_nil, List.reverse_reverse]
        exact .inl (Node.ofMembers_own node)

end

/-! ### What breaks a text -/

mutual

/-- The strings in a spelling, the names of members among them. -/
def strings : Spelling → List StringSpelling
  | string s => [s]
  | array _ items => itemsStrings items
  | object _ members => membersStrings members
  | _ => []

def itemsStrings : List (Around × Spelling) → List StringSpelling
  | [] => []
  | (_, s) :: items => s.strings ++ itemsStrings items

def membersStrings : List (Label × Spelling) → List StringSpelling
  | [] => []
  | (label, s) :: members => label.name :: (s.strings ++ membersStrings members)

end

theorem itemsStrings_eq_flatMap (items : List (Around × Spelling)) :
    itemsStrings items = items.flatMap fun item => item.2.strings := by
  induction items with
  | nil => rfl
  | cons item items ih => rw [itemsStrings, ih, List.flatMap_cons]

theorem membersStrings_eq_flatMap (members : List (Label × Spelling)) :
    membersStrings members = members.flatMap fun member => member.1.name :: member.2.strings := by
  induction members with
  | nil => rfl
  | cons member members ih => rw [membersStrings, ih, List.flatMap_cons, List.cons_append]

/-- Where a spelling has a meaning, all its strings have one. -/
theorem exists_meaning_of_mem_strings {s : Spelling} {room : Nat} {v : Value} (h : s.meaning room = .ok v) :
    ∀ string ∈ s.strings, ∃ text, string.meaning = .ok text := by
  induction s using Spelling.induction generalizing room v with
  | scalar s hs =>
    cases s with
    | string string =>
      obtain ⟨text, htext, -⟩ := bind_eq_ok.mp h
      exact List.forall_mem_singleton.mpr ⟨text, htext⟩
    | array blanks items => cases hs
    | object blanks members => cases hs
    | null => simp [strings]
    | bool value => simp [strings]
    | number n => simp [strings]
  | array blanks items ih =>
    rw [meaning_array] at h
    obtain ⟨inner, -, h⟩ := bind_eq_ok.mp h
    obtain ⟨values, hvalues, -⟩ := bind_eq_ok.mp h
    rw [itemsMeaning_eq_mapM] at hvalues
    have hstep : ∀ item ∈ items, ∀ w, item.2.meaning inner = .ok w →
        (∀ string ∈ item.2.strings, ∃ text, string.meaning = .ok text) ∧ True :=
      fun item hitem w hw => ⟨ih item hitem hw, trivial⟩
    rw [strings, itemsStrings_eq_flatMap, List.forall_mem_flatMap]
    exact (mapM_eq_ok hstep hvalues).1
  | object blanks members ih =>
    rw [meaning_object] at h
    obtain ⟨inner, -, h⟩ := bind_eq_ok.mp h
    obtain ⟨values, hvalues, -⟩ := bind_eq_ok.mp h
    rw [membersMeaning_eq_mapM] at hvalues
    have hstep : ∀ member ∈ members, ∀ value, memberMeaning inner member = .ok value →
        (∀ string ∈ member.1.name :: member.2.strings, ∃ text, string.meaning = .ok text) ∧ True := by
      intro member hmember value hvalue
      obtain ⟨name, hname, hvalue⟩ := bind_eq_ok.mp hvalue
      obtain ⟨w, hw, -⟩ := bind_eq_ok.mp hvalue
      exact ⟨List.forall_mem_cons.mpr ⟨⟨name, hname⟩, ih member hmember hw⟩, trivial⟩
    rw [strings, membersStrings_eq_flatMap, List.forall_mem_flatMap]
    exact (mapM_eq_ok hstep hvalues).1

/-- No tree is read where half a surrogate pair stands alone in some string. -/
theorem nodeMeaning_ne_ok {s : Spelling} (h : ∃ string ∈ s.strings, string.HasLoneSurrogate) (room : Nat)
    (node : Node) : s.nodeMeaning room ≠ .ok node := by
  intro hnode
  obtain ⟨-, v, hv, -⟩ := nodeMeaning_eq_ok_iff.mp hnode
  obtain ⟨string, hstring, hlone⟩ := h
  obtain ⟨text, htext⟩ := exists_meaning_of_mem_strings hv string hstring
  rw [StringSpelling.meaning_of_hasLoneSurrogate hlone] at htext
  cases htext

end Spelling

end Json

namespace Node

/-- A tree of depth 127 at most loads from each text in which every string of its own text is spelled in some way, and
a text with half a surrogate pair alone in any of these strings is malformed. -/
theorem load_respelled (node : Node) (h : node.jsonDepth ≤ 127) :
    (∀ s, node.toValue.WrittenWith (fun text string => string.Spells text) s →
      load s.text = .ok node.canonical ∧ load node.json = .ok node.canonical) ∧
    ∀ s, node.toValue.WrittenWith (fun text string => string.Spells text ∨ string.HasLoneSurrogate) s →
      (∃ string ∈ s.strings, string.HasLoneSurrogate) → load s.text = .error .malformed := by
  constructor
  · have hspells : ∀ (text : String) (string : StringSpelling), string.Spells text → Gives False text string.meaning :=
      fun text string h => gives_false_iff.mpr (StringSpelling.meaning_eq_ok_iff.mpr h)
    have hloads : ∀ s, node.toValue.WrittenWith (fun text string => string.Spells text) s →
        load s.text = .ok node.canonical := fun s hs =>
      (load_textIn {} s).trans (gives_false_iff.mp (Spelling.gives_nodeMeaning hspells hs h))
    -- the text of the tree is one of these texts
    have hown : load node.json = .ok node.canonical := by
      rw [json_eq_textIn]
      exact hloads _ node.toValue.writtenWith_spelling
    exact fun s hs => ⟨hloads s hs, hown⟩
  · intro s hs hlone
    have hbroken : ∀ (text : String) (string : StringSpelling), string.Spells text ∨ string.HasLoneSurrogate →
        Gives True text string.meaning := by
      rintro text string (h | h)
      · exact .inl (StringSpelling.meaning_eq_ok_iff.mpr h)
      · exact .inr ⟨trivial, StringSpelling.meaning_of_hasLoneSurrogate h⟩
    rcases Spelling.gives_nodeMeaning hbroken hs h with hok | ⟨-, herror⟩
    · exact absurd hok (Spelling.nodeMeaning_ne_ok hlone 127 _)
    · exact (load_textIn {} s).trans herror

/-- The name of the tag with a number for its first letter. -/
def spelledKind : StringSpelling :=
  ⟨[.unit '0' '0' '6' 'b' 0x6B rfl, .raw 'i' (by decide), .raw 'n' (by decide), .raw 'd' (by decide)]⟩

/-- A face as a surrogate pair, and a slash behind a backslash. -/
def spelledFace : StringSpelling :=
  ⟨[.unit 'D' '8' '3' 'd' 0xD83D rfl, .unit 'd' 'E' '0' '0' 0xDE00 rfl, .letter '/' '/' rfl]⟩

/-- The halves of this pair the wrong way round. -/
def spelledHalves : StringSpelling :=
  ⟨[.unit 'd' 'E' '0' '0' 0xDE00 rfl, .unit 'D' '8' '3' 'd' 0xD83D rfl, .letter '/' '/' rfl]⟩

/-- An identifier with this name for its tag. -/
def spelledIdentifier (symbol : StringSpelling) : Spelling :=
  .object {} [({ name := spelledKind }, .string (spelledString "Identifier")),
    ({ name := spelledString "symbol" }, .string symbol)]

theorem load_respelled_face :
    (identifier "😀/").jsonDepth ≤ 127 ∧
    (identifier "😀/").json = "\x7b\"kind\":\"Identifier\",\"symbol\":\"😀/\"\x7d" ∧
    (spelledIdentifier spelledFace).text =
      "\x7b\"\\u006bind\":\"Identifier\",\"symbol\":\"\\uD83d\\udE00\\/\"\x7d" ∧
    load (spelledIdentifier spelledFace).text = .ok (identifier "😀/") ∧
    (spelledIdentifier spelledHalves).text =
      "\x7b\"\\u006bind\":\"Identifier\",\"symbol\":\"\\udE00\\uD83d\\/\"\x7d" ∧
    load (spelledIdentifier spelledHalves).text = .error .malformed := by
  have hkind : spelledKind.Spells "kind" := StringSpelling.meaning_eq_ok_iff.mp (by decide)
  have hface : spelledFace.Spells "😀/" := StringSpelling.meaning_eq_ok_iff.mp (by decide)
  have hstring : ∀ text, (spelledString text).Spells text :=
    fun text => StringSpelling.meaning_eq_ok_iff.mp (meaning_spelledString text)
  have hlone : spelledHalves.HasLoneSurrogate := ⟨[], _, _, rfl, .inr ⟨rfl, by simp⟩⟩
  have hmem : spelledHalves ∈ (spelledIdentifier spelledHalves).strings := by
    simp [spelledIdentifier, Spelling.strings, Spelling.membersStrings]
  have hdepth : (identifier "😀/").jsonDepth ≤ 127 := by decide
  have hwritten := load_respelled (identifier "😀/") hdepth
  refine ⟨hdepth, by decide +kernel, by decide +kernel, ?_, by decide +kernel, ?_⟩
  · exact (hwritten.1 (spelledIdentifier spelledFace)
      (.object (.cons hkind (.string (hstring _)) (.cons (hstring _) (.string hface) .nil)))).1
  · refine hwritten.2 (spelledIdentifier spelledHalves) ?_ ⟨spelledHalves, hmem, hlone⟩
    exact .object (.cons (.inl hkind) (.string (.inl (hstring _)))
      (.cons (.inl (hstring _)) (.string (.inr hlone)) .nil))

end Node

end SyntaxTree
