import SyntaxTree.Proofs.Identical
import SyntaxTree.Proofs.Rearranged
import SyntaxTree.Proofs.Tags

/-!
Texts with their members rearranged. In the text of a tree the members of every object may stand in any order, among
further members with other names, with blanks between any two tokens; as long as no more than 127 brackets are open
at once, the text loads as the tree that was written.
-/

namespace SyntaxTree

open Json

namespace Json

/-- A member that can be read and has none of the given names. -/
structure IsFurther (names : List String) (member : Label × Spelling) : Prop where
  value : ∃ room v, member.2.meaning room = .ok v
  name : ∃ name, member.1.name.meaning = .ok name ∧ name ∉ names

namespace Value

mutual

/-- A spelling of a value in which the members of every object stand in any order, among further members that can
be read and have names that the object does not have. Blanks may stand between any two tokens. -/
inductive SpelledBy : Value → Spelling → Prop where
  | scalar {v : Value} {s : Spelling} (hs : s.isScalar = true) (hv : s.meaning 0 = .ok v) : SpelledBy v s
  | array {items : List Value} {blanks : Blanks} {spelled : List (Around × Spelling)}
    (h : ItemsSpelledBy items spelled) : SpelledBy (.array items) (.array blanks spelled)
  | object {members : List (String × Value)} {blanks : Blanks} {own further spelled : List (Label × Spelling)}
    (hown : MembersSpelledBy members own) (hfurther : ∀ member ∈ further, IsFurther (members.map Prod.fst) member)
    (hperm : spelled.Perm (own ++ further)) : SpelledBy (.object members) (.object blanks spelled)

inductive ItemsSpelledBy : List Value → List (Around × Spelling) → Prop where
  | nil : ItemsSpelledBy [] []
  | cons {v : Value} {items : List Value} {around : Around} {s : Spelling} {spelled : List (Around × Spelling)}
    (h : SpelledBy v s) (hrest : ItemsSpelledBy items spelled) : ItemsSpelledBy (v :: items) ((around, s) :: spelled)

inductive MembersSpelledBy : List (String × Value) → List (Label × Spelling) → Prop where
  | nil : MembersSpelledBy [] []
  | cons {name : String} {v : Value} {members : List (String × Value)} {label : Label} {s : Spelling}
    {spelled : List (Label × Spelling)} (hname : label.name.meaning = .ok name) (h : SpelledBy v s)
    (hrest : MembersSpelledBy members spelled) : MembersSpelledBy ((name, v) :: members) ((label, s) :: spelled)

end

/-! ### The written text -/

theorem spelledBy_spelling (v : Value) (h : v.IsReadable) : v.SpelledBy v.spelling := by
  induction v using Value.induction with
  | array items ih =>
    have hitems : ItemsSpelledBy items (itemsSpelling items) := by
      induction items with
      | nil => exact .nil
      | cons item items ih' =>
        exact .cons (ih item List.mem_cons_self h.1)
          (ih' (fun item hitem => ih item (List.mem_cons_of_mem _ hitem)) h.2)
    exact .array hitems
  | object members ih =>
    have hmembers : MembersSpelledBy members (membersSpelling members) := by
      induction members with
      | nil => exact .nil
      | cons member members ih' =>
        exact .cons (meaning_spelledString member.1) (ih member List.mem_cons_self h.1)
          (ih' (fun member hmember => ih member (List.mem_cons_of_mem _ hmember)) h.2)
    refine .object hmembers (List.forall_mem_nil _) ?_
    rw [List.append_nil]
  | null => exact .scalar rfl rfl
  | bool value => exact .scalar rfl rfl
  | integer n => exact .scalar rfl (value_spelledInteger h)
  | float x =>
    have hfinite : x.isFinite = true := h
    rw [spelling, dif_pos hfinite]
    exact .scalar rfl (x.value_spelling hfinite)
  | string text => exact .scalar rfl (meaning_spelling (.string text) trivial 0)

end Value

namespace Spelling

/-! ### Reading -/

theorem membersMeaning_perm {room : Nat} {spelled spelled' : List (Label × Spelling)} (hperm : spelled.Perm spelled')
    {values' : List (String × Value)} (h : membersMeaning room spelled' = .ok values') :
    ∃ values, membersMeaning room spelled = .ok values ∧ values.Perm values' := by
  induction hperm generalizing values' with
  | nil => exact ⟨values', h, .refl _⟩
  | cons member hperm ih =>
    obtain ⟨label, s⟩ := member
    obtain ⟨name, hname, v, hv, rest', hrest', rfl⟩ := (membersMeaning_cons _ _ _ _ _).mp h
    obtain ⟨rest, hrest, hrests⟩ := ih hrest'
    exact ⟨(name, v) :: rest, (membersMeaning_cons _ _ _ _ _).mpr ⟨name, hname, v, hv, rest, hrest, rfl⟩,
      hrests.cons _⟩
  | swap first second spelled =>
    obtain ⟨label, s⟩ := first
    obtain ⟨label', s'⟩ := second
    obtain ⟨name, hname, v, hv, others, hothers, rfl⟩ := (membersMeaning_cons _ _ _ _ _).mp h
    obtain ⟨name', hname', v', hv', rest, hrest, rfl⟩ := (membersMeaning_cons _ _ _ _ _).mp hothers
    have hothers' := (membersMeaning_cons room label s spelled _).mpr ⟨name, hname, v, hv, rest, hrest, rfl⟩
    exact ⟨(name', v') :: (name, v) :: rest,
      (membersMeaning_cons _ _ _ _ _).mpr ⟨name', hname', v', hv', _, hothers', rfl⟩, .swap _ _ _⟩
  | trans hperm hperm' ih ih' =>
    obtain ⟨middle, hmiddle, hmiddles⟩ := ih' h
    obtain ⟨values, hvalues, hperms⟩ := ih hmiddle
    exact ⟨values, hvalues, hperms.trans hmiddles⟩

/-- Where there is room for its brackets, a further member is read, and its name remains another one. -/
theorem membersMeaning_further {names : List String} {room : Nat} {further : List (Label × Spelling)}
    (hfurther : ∀ member ∈ further, IsFurther names member) (hdepth : ∀ member ∈ further, member.2.depth ≤ room) :
    ∃ extra, membersMeaning room further = .ok extra ∧ ∀ member ∈ extra, member.1 ∉ names := by
  induction further with
  | nil => exact ⟨[], rfl, List.forall_mem_nil _⟩
  | cons member further ih =>
    obtain ⟨label, s⟩ := member
    obtain ⟨⟨room', v, hv⟩, name, hname, hother⟩ := hfurther _ List.mem_cons_self
    have hv' : s.meaning room = .ok v :=
      (meaning_of_depth_le (hdepth _ List.mem_cons_self) (fits_of_meaning hv).1).trans hv
    obtain ⟨extra, hextra, hothers⟩ := ih (fun member h => hfurther member (List.mem_cons_of_mem _ h))
      (fun member h => hdepth member (List.mem_cons_of_mem _ h))
    exact ⟨(name, v) :: extra, (membersMeaning_cons _ _ _ _ _).mpr ⟨name, hname, v, hv', extra, hextra, rfl⟩,
      List.forall_mem_cons.mpr ⟨hother, hothers⟩⟩

/-- Whatever value it spells, the spelling is read as that value rearranged, where there is room for its brackets. -/
def ReadsRearranged (s : Spelling) : Prop :=
  ∀ {v : Value}, v.SpelledBy s → ∀ {room : Nat}, s.depth ≤ room → ∃ w, s.meaning room = .ok w ∧ v.Rearranged w

theorem itemsMeaning_spelledBy {spelled : List (Around × Spelling)}
    (hreads : ∀ item ∈ spelled, item.2.ReadsRearranged) {items : List Value}
    (h : Value.ItemsSpelledBy items spelled) {room : Nat} (hdepth : itemsDepth spelled ≤ room) :
    ∃ items', itemsMeaning room spelled = .ok items' ∧ Value.ItemsRearranged items items' := by
  induction spelled generalizing items with
  | nil =>
    cases h
    exact ⟨[], rfl, .nil⟩
  | cons item spelled ih =>
    cases h with
    | cons hv hrest =>
      rw [itemsDepth, Nat.max_le] at hdepth
      obtain ⟨w, hw, hrearranged⟩ := hreads _ List.mem_cons_self hv hdepth.1
      obtain ⟨items', hitems', hrearrangeds⟩ :=
        ih (fun item hitem => hreads item (List.mem_cons_of_mem _ hitem)) hrest hdepth.2
      refine ⟨w :: items', ?_, .cons hrearranged hrearrangeds⟩
      rw [itemsMeaning, hw, ok_bind, hitems', ok_bind]

theorem membersMeaning_spelledBy {own : List (Label × Spelling)} (hreads : ∀ member ∈ own, member.2.ReadsRearranged)
    {members : List (String × Value)} (h : Value.MembersSpelledBy members own) {room : Nat}
    (hdepth : ∀ member ∈ own, member.2.depth ≤ room) :
    ∃ members', membersMeaning room own = .ok members' ∧ Value.MembersRearranged members members' := by
  induction own generalizing members with
  | nil =>
    cases h
    exact ⟨[], rfl, .nil⟩
  | cons member own ih =>
    cases h with
    | @cons name _ _ _ _ _ hname hv hrest =>
      obtain ⟨w, hw, hrearranged⟩ := hreads _ List.mem_cons_self hv (hdepth _ List.mem_cons_self)
      obtain ⟨members', hmembers', hrearrangeds⟩ :=
        ih (fun member hmember => hreads member (List.mem_cons_of_mem _ hmember)) hrest
          (fun member hmember => hdepth member (List.mem_cons_of_mem _ hmember))
      exact ⟨(name, w) :: members',
        (membersMeaning_cons _ _ _ _ _).mpr ⟨name, hname, w, hw, members', hmembers', rfl⟩,
        .cons hrearranged hrearrangeds⟩

theorem readsRearranged (s : Spelling) : s.ReadsRearranged := by
  induction s using Spelling.induction with
  | scalar s hs =>
    intro v h room hdepth
    cases h with
    | scalar _ hv =>
      rw [meaning_of_isScalar hs]
      exact ⟨v, hv, .scalar (Nat.le_zero.mp (fits_of_meaning hv).2.depth_le)⟩
    | array h => cases hs
    | object hown hfurther hperm => cases hs
  | array blanks spelled ih =>
    intro v h room hdepth
    obtain ⟨inner, rfl⟩ := exists_room hdepth
    cases h with
    | scalar hs hv => cases hs
    | array h =>
      obtain ⟨items', hitems', hrearranged⟩ := itemsMeaning_spelledBy ih h (Nat.le_of_succ_le_succ hdepth)
      exact ⟨.array items', by rw [meaning, hitems', ok_bind], .array hrearranged⟩
  | object blanks spelled ih =>
    intro v h room hdepth
    obtain ⟨inner, rfl⟩ := exists_room hdepth
    have hdepths := membersDepth_le_iff.mp (Nat.le_of_succ_le_succ hdepth)
    cases h with
    | scalar hs hv => cases hs
    | @object members _ own further _ hown hfurther hperm =>
      have hmem : ∀ member ∈ own ++ further, member ∈ spelled := fun member => hperm.mem_iff.mpr
      obtain ⟨members', hmembers', hrearranged⟩ := membersMeaning_spelledBy
        (fun member hmember => ih member (hmem member (List.mem_append_left _ hmember))) hown
        (fun member hmember => hdepths member (hmem member (List.mem_append_left _ hmember)))
      obtain ⟨extra, hextra, hnames⟩ := membersMeaning_further hfurther
        (fun member hmember => hdepths member (hmem member (List.mem_append_right _ hmember)))
      have happend : membersMeaning inner (own ++ further) = .ok (members' ++ extra) := by
        rw [membersMeaning_append, hmembers', ok_bind, hextra, ok_bind]
      obtain ⟨values, hvalues, hperm'⟩ := membersMeaning_perm hperm happend
      exact ⟨.object values, by rw [meaning, hvalues, ok_bind], .object hrearranged hnames hperm'⟩

/-! ### Tags -/

theorem isNumber_of_spelledBy {text : String} {s : Spelling} (h : (Value.string text).SpelledBy s) :
    s.isNumber = false := by
  cases h with
  | scalar hs hv =>
    cases s with
    | number n =>
      rw [meaning, NumberText.value] at hv
      split at hv
      · cases hv
      · rw [NumberText.float] at hv
        split at hv <;> cases hv
    | null => rfl
    | bool value => rfl
    | string string => rfl
    | array blanks items => rfl
    | object blanks members => rfl

theorem exists_of_membersSpelledBy {members : List (String × Value)} {own : List (Label × Spelling)}
    (h : Value.MembersSpelledBy members own) {spelled : Label × Spelling} (hmem : spelled ∈ own) :
    ∃ member ∈ members, spelled.1.name.meaning = .ok member.1 ∧ member.2.SpelledBy spelled.2 := by
  induction members generalizing own with
  | nil =>
    cases h
    cases hmem
  | cons member members ih =>
    cases h with
    | cons hname hv hrest =>
      rcases List.mem_cons.mp hmem with rfl | hmem
      · exact ⟨_, List.mem_cons_self, hname, hv⟩
      · obtain ⟨member', hmember', hspelled⟩ := ih hrest hmem
        exact ⟨member', List.mem_cons_of_mem _ hmember', hspelled⟩

/-- The tag of a written tree stays a string. -/
theorem hasNumberTag_of_spelledBy {node : Node} {s : Spelling} (h : node.toValue.SpelledBy s) :
    s.hasNumberTag = false := by
  rw [Node.toValue, Node.tagged] at h
  cases h with
  | scalar hs hv =>
    cases s with
    | array blanks items => cases hs
    | object blanks members => cases hs
    | _ => rfl
  | @object _ blanks own further spelled hown hfurther hperm =>
    rw [hasNumberTag, List.any_eq_false]
    intro member hmember
    rcases List.mem_append.mp (hperm.mem_iff.mp hmember) with hmember | hmember
    · obtain ⟨written, hwritten, hname, hspelled⟩ := exists_of_membersSpelledBy hown hmember
      rcases List.mem_cons.mp hwritten with rfl | hwritten
      · simp [isNumberTag, isNumber_of_spelledBy hspelled]
      · simp [isNumberTag, hname, Node.ne_tagName_of_mem_members node written hwritten]
    · obtain ⟨-, name, hname, hother⟩ := hfurther member hmember
      have hne : name ≠ Node.tagName := by
        rintro rfl
        exact hother List.mem_cons_self
      simp [isNumberTag, hname, hne]

/-- Where there is room for its brackets, such a spelling of a tree is read as the tree. -/
theorem nodeMeaning_of_spelledBy {node : Node} {s : Spelling} (h : node.toValue.SpelledBy s) {room : Nat}
    (hdepth : s.depth ≤ room) : s.nodeMeaning room = .ok node.canonical := by
  obtain ⟨w, hw, hrearranged⟩ := s.readsRearranged h hdepth
  have hnode : Node.ofValue w = .ok node.canonical :=
    Value.keepsContent_of_rearranged hrearranged .node node.canonical (Node.ofValue_toValue node)
  exact nodeMeaning_eq_ok_iff.mpr ⟨hasNumberTag_of_spelledBy h, w, hw, hnode⟩

end Spelling

end Json

namespace Node

theorem jsonDepth_canonical (node : Node) : node.canonical.jsonDepth = node.jsonDepth := by
  rw [← depth_toValue, toValue_canonical, depth_toValue]

/-- A text of a tree with the members of every object in any order, among further members with other names, and with
blanks between any two tokens loads as the text of the tree does, if no more than 127 brackets are open at once. -/
theorem load_rearranged (node : Node) (around : Around) (s : Spelling) (h : node.toValue.SpelledBy s)
    (hopen : maxOpen (s.textIn around) ≤ 127) :
    load (s.textIn around) = .ok node.canonical ∧ load node.json = .ok node.canonical := by
  rw [maxOpen_textIn] at hopen
  have hmeaning : s.nodeMeaning maxDepth = .ok node.canonical := Spelling.nodeMeaning_of_spelledBy h hopen
  have hdepth : node.jsonDepth ≤ maxDepth := by
    obtain ⟨-, hdepth, -⟩ := Spelling.fits_of_nodeMeaning hmeaning
    rwa [jsonDepth_canonical] at hdepth
  exact ⟨(load_textIn around s).trans hmeaning, node.load_json.trans (within_of_le hdepth _)⟩

/-- The tag of a kind with nothing around it. -/
def spelledTag (k : Kind) : Label × Spelling := ({ name := spelledString tagName }, (Value.string k.name).spelling)

/-- A member that no node has, with a space before its value. -/
def spelledNote : Label × Spelling :=
  ({ name := spelledString "note", afterColon := ⟨[' '], List.forall_mem_singleton.mpr rfl⟩ }, .array {} [])

/-- A null literal with this member in front of its tag. -/
def spelledNull : Spelling := .object {} [spelledNote, spelledTag .nullLiteral]

/-- A program over this literal, with its tag behind its body. -/
def spelledProgram : Spelling :=
  .object {} [({ name := spelledString "body" }, .array {} [({}, spelledNull)]), spelledTag .program]

theorem load_spelledProgram :
    (program [.null]).toValue.SpelledBy spelledProgram ∧
    spelledProgram.textIn {} =
      "\x7b\"body\":[\x7b\"note\": [],\"kind\":\"NullLiteral\"\x7d],\"kind\":\"Program\"\x7d" ∧
    maxOpen (spelledProgram.textIn {}) ≤ 127 ∧
    load (spelledProgram.textIn {}) = .ok (.program [.null]) ∧
    load (program [.null]).json = .ok (.program [.null]) := by
  have htag : ∀ k : Kind, Value.MembersSpelledBy [(tagName, .string k.name)] [spelledTag k] := fun k =>
    .cons (meaning_spelledString tagName) (Value.spelledBy_spelling (.string k.name) trivial) .nil
  have hnote : IsFurther [tagName] spelledNote :=
    ⟨⟨1, .array [], rfl⟩, "note", meaning_spelledString "note", by decide⟩
  have hnull : null.toValue.SpelledBy spelledNull :=
    .object (htag .nullLiteral) (List.forall_mem_singleton.mpr hnote) (.swap _ _ _)
  have hmembers : Value.MembersSpelledBy [(tagName, .string Kind.program.name), ("body", .array [null.toValue])]
      [spelledTag .program, ({ name := spelledString "body" }, .array {} [({}, spelledNull)])] :=
    .cons (meaning_spelledString tagName) (Value.spelledBy_spelling (.string Kind.program.name) trivial)
      (.cons (meaning_spelledString "body") (.array (.cons hnull .nil)) .nil)
  have h : (program [.null]).toValue.SpelledBy spelledProgram :=
    .object hmembers (List.forall_mem_nil _) (.swap _ _ _)
  have hopen : maxOpen (spelledProgram.textIn {}) ≤ 127 := by
    rw [maxOpen_textIn]
    decide
  exact ⟨h, by decide +kernel, hopen, load_rearranged _ {} _ h hopen⟩

end Node

end SyntaxTree
