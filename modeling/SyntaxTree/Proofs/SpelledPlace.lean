import SyntaxTree.Proofs.SpelledValue

/-!
Places that are read are spelled, and a text loads exactly where it is a spelling between blanks that has a
meaning.
-/

namespace SyntaxTree.Json

/-! ### Texts and tags -/

theorem spells_readText (expected : Expected) : Spells (readText expected) (Spelling.textMeaning expected) := by
  intro cs text rest h
  unfold readText at h
  obtain ⟨⟨token, cs₁⟩, htoken, hbody⟩ := bind_eq_ok.mp h
  have hspelled := readToken_eq_ok spelledEscape_full htoken
  cases token with
  | scalar v =>
    obtain ⟨s, hs, hwrite, hmeaning⟩ := hspelled
    cases v with
    | string text' =>
      cases hbody
      refine ⟨leadingBlanks cs, s, eq_blanks_append hwrite, ?_⟩
      rw [Spelling.textMeaning_of_isScalar hs, hmeaning rfl]
      rfl
    | null => cases hbody
    | bool _ => cases hbody
    | integer _ => cases hbody
    | float _ => cases hbody
    | array _ => cases hbody
    | object _ => cases hbody
  | openArray => cases hbody
  | openObject => cases hbody

theorem spells_readTag : Spells readTag Spelling.tagMeaning := by
  intro cs k rest h
  obtain ⟨⟨name, cs₁⟩, hname, hbody⟩ := bind_eq_ok.mp h
  obtain ⟨k', hk, hbody⟩ := bind_eq_ok.mp hbody
  cases hbody
  obtain ⟨blanks, s, hcs, hmeaning⟩ := spells_readText .tag cs name rest hname
  refine ⟨blanks, s, hcs, ?_⟩
  rw [Spelling.tagMeaning, hmeaning]
  exact hk

/-! ### Nodes -/

theorem spellsMember_readNodeMember (bound room : Nat) (name : String) (parts : NodeParts) :
    SpellsMember (readNodeMember bound room name parts) (Spelling.addMember room parts name) := by
  intro cs parts' rest h
  unfold readNodeMember at h
  by_cases htag : name = Node.tagName
  · rw [if_pos htag] at h
    by_cases hsome : parts.tag?.isSome = true
    · rw [if_pos hsome] at h
      cases h
    · rw [if_neg hsome] at h
      obtain ⟨cs₁, hcolon, hbody⟩ := bind_eq_ok.mp h
      obtain ⟨⟨k, cs₂⟩, hread, hbody⟩ := bind_eq_ok.mp hbody
      cases hbody
      obtain ⟨before, rfl⟩ := colon_eq_ok hcolon
      obtain ⟨after, s, rfl, hk⟩ := spells_readTag cs₁ k rest hread
      refine ⟨before, after, s, rfl, ?_⟩
      rw [Spelling.addMember, if_pos htag, if_neg hsome, hk]
      rfl
  · rw [if_neg htag] at h
    obtain ⟨⟨members, cs₁⟩, hread, hbody⟩ := bind_eq_ok.mp h
    cases hbody
    obtain ⟨before, after, s, hcs, hs⟩ :=
      collectMember_eq_ok (spells_readValue bound room) name parts.members cs members rest hread
    obtain ⟨v, hv, hs⟩ := bind_eq_ok.mp hs
    cases hs
    refine ⟨before, after, s, hcs, ?_⟩
    rw [Spelling.addMember, if_neg htag, hv]
    rfl

theorem spells_readNode (bound room : Nat) : Spells (readNode bound room) (Spelling.nodeMeaning room) := by
  intro cs node rest h
  unfold readNode at h
  obtain ⟨⟨token, cs₁⟩, htoken, hbody⟩ := bind_eq_ok.mp h
  have hspelled := readToken_eq_ok spelledEscape_full htoken
  cases token with
  | scalar v => cases hbody
  | openObject =>
    obtain ⟨room', hroom, hbody⟩ := bind_eq_ok.mp hbody
    obtain ⟨⟨parts, cs₂⟩, hmembers, hbody⟩ := bind_eq_ok.mp hbody
    obtain ⟨k, hk, hbody⟩ := bind_eq_ok.mp hbody
    obtain ⟨node', hnode, hbody⟩ := bind_eq_ok.mp hbody
    cases hbody
    obtain ⟨blanks, members, rfl, hfold⟩ :=
      objectMembers_eq_ok (fun name parts => spellsMember_readNodeMember bound room' name parts) hmembers
    refine ⟨leadingBlanks cs, .object blanks members, eq_blanks_append hspelled, ?_⟩
    have hadd : foldMembers (Spelling.addMember room') {} members = .ok parts := hfold
    rw [Spelling.nodeMeaning, hroom, ok_bind, hadd, ok_bind, hk]
    exact hnode
  | openArray =>
    obtain ⟨room', hroom, hbody⟩ := bind_eq_ok.mp hbody
    obtain ⟨⟨next, cs₂⟩, hnext, hbody⟩ := bind_eq_ok.mp hbody
    cases next with
    | close => cases hbody
    | item =>
      obtain ⟨⟨k, cs₃⟩, htag, hbody⟩ := bind_eq_ok.mp hbody
      obtain ⟨⟨values, cs₄⟩, hitems, hbody⟩ := bind_eq_ok.mp hbody
      obtain ⟨node', hnode, hbody⟩ := bind_eq_ok.mp hbody
      cases hbody
      obtain ⟨outer, before, rfl⟩ := nextElement_item_eq_ok hnext
      obtain ⟨inner, tag, rfl, hk⟩ := spells_readTag cs₂ k cs₃ htag
      obtain ⟨blanks, items, rfl, hvalues⟩ := elements_collect_eq_ok (spells_readValue bound room') hitems
      refine ⟨leadingBlanks cs, .array outer ((⟨before.append inner, blanks⟩, tag) :: items), ?_, ?_⟩
      · have hwrite : skipBlanks cs =
            (Spelling.array outer ((⟨before.append inner, blanks⟩, tag) :: items)).write rest := by
          rw [hspelled, Spelling.write, Spelling.writeItems, Blanks.append, List.append_assoc]
        exact eq_blanks_append hwrite
      · rw [Spelling.nodeMeaning, hroom, ok_bind]
        dsimp only
        rw [hk, Spelling.itemsMeaning_eq_mapM, hvalues]
        exact hnode

/-! ### Fields -/

theorem spells_readNodes (bound room : Nat) : Spells (readNodes bound room) (Spelling.nodesMeaning room) := by
  intro cs nodes rest h
  unfold readNodes at h
  obtain ⟨⟨token, cs₁⟩, htoken, hbody⟩ := bind_eq_ok.mp h
  have hspelled := readToken_eq_ok spelledEscape_full htoken
  cases token with
  | scalar v => cases hbody
  | openObject => cases hbody
  | openArray =>
    obtain ⟨room', hroom, hbody⟩ := bind_eq_ok.mp hbody
    obtain ⟨⟨nodes', cs₂⟩, hitems, hbody⟩ := bind_eq_ok.mp hbody
    cases hbody
    obtain ⟨blanks, items, rfl, hnodes⟩ := elements_collect_eq_ok (spells_readNode bound room') hitems
    refine ⟨leadingBlanks cs, .array blanks items, eq_blanks_append hspelled, ?_⟩
    rw [Spelling.nodesMeaning, hroom]
    exact hnodes

theorem spells_readContent (bound room : Nat) (place : Place) :
    Spells (readContent bound room place) (Spelling.contentMeaning room place) := by
  cases place with
  | node => exact spells_readNode bound room
  | nodes => exact spells_readNodes bound room
  | text => exact spells_readText .text
  | number =>
    intro cs x rest h
    obtain ⟨⟨v, cs₁⟩, hread, hbody⟩ := bind_eq_ok.mp h
    obtain ⟨x', hx, hbody⟩ := bind_eq_ok.mp hbody
    cases hbody
    obtain ⟨blanks, s, hcs, hs⟩ := spells_readValue bound room cs v rest hread
    refine ⟨blanks, s, hcs, ?_⟩
    rw [Spelling.contentMeaning, hs]
    exact hx

/-! ### Records -/

theorem spellsMember_readField (bound room : Nat) (name : String) (draft : Draft) :
    SpellsMember (readField bound room name draft) (Spelling.addField room draft name) := by
  intro cs draft' rest h
  unfold readField at h
  cases hslot : draft.slot name with
  | unknown =>
    rw [hslot] at h
    obtain ⟨cs₁, hcolon, hbody⟩ := bind_eq_ok.mp h
    obtain ⟨cs₂, hskip, hbody⟩ := bind_eq_ok.mp hbody
    cases hbody
    obtain ⟨before, rfl⟩ := colon_eq_ok hcolon
    obtain ⟨after, s, rfl⟩ := skip_eq_ok hskip
    refine ⟨before, after, s, rfl, ?_⟩
    rw [Spelling.addField, hslot]
  | filled =>
    rw [hslot] at h
    cases h
  | vacant place fill =>
    rw [hslot] at h
    obtain ⟨cs₁, hcolon, hbody⟩ := bind_eq_ok.mp h
    obtain ⟨⟨content, cs₂⟩, hread, hbody⟩ := bind_eq_ok.mp hbody
    cases hbody
    obtain ⟨before, rfl⟩ := colon_eq_ok hcolon
    obtain ⟨after, s, rfl, hs⟩ := spells_readContent bound room place cs₁ content rest hread
    refine ⟨before, after, s, rfl, ?_⟩
    rw [Spelling.addField, hslot]
    dsimp only
    rw [hs]
    rfl

theorem readItems_eq_ok {bound room : Nat} {k : Kind} {count : Nat} {draft draft' : Draft} {names : List String}
    {cs rest : List Char} (h : readItems bound room k count draft names cs = .ok (draft', rest)) :
    ∃ (blanks : Blanks) (items : List (Around × Spelling)),
      cs = blanks.chars ++ Spelling.writeItems (count == 0) items (']' :: rest) ∧
        Spelling.addItems room k count draft names items = .ok draft' := by
  induction names generalizing count draft cs with
  | nil =>
    rw [readItems, closeArray] at h
    cases hskip : skipBlanks cs with
    | nil =>
      rw [hskip] at h
      cases h
    | cons c tail =>
      rw [hskip] at h
      dsimp only at h
      by_cases hclose : c = ']'
      · rw [if_pos hclose] at h
        cases h
        exact ⟨leadingBlanks cs, [], eq_blanks_append (hskip.trans (by rw [hclose]; rfl)), rfl⟩
      · rw [if_neg hclose] at h
        cases h
  | cons name names ih =>
    rw [readItems] at h
    obtain ⟨⟨next, cs₁⟩, hnext, hbody⟩ := bind_eq_ok.mp h
    cases next with
    | close => cases hbody
    | item =>
      cases hslot : draft.slot name with
      | unknown =>
        rw [hslot] at hbody
        cases hbody
      | filled =>
        rw [hslot] at hbody
        cases hbody
      | vacant place fill =>
        rw [hslot] at hbody
        obtain ⟨⟨content, cs₂⟩, hread, hrest⟩ := bind_eq_ok.mp hbody
        obtain ⟨outer, before, rfl⟩ := nextElement_item_eq_ok hnext
        obtain ⟨inner, s, rfl, hs⟩ := spells_readContent bound room place cs₁ content cs₂ hread
        obtain ⟨blanks, items, rfl, hitems⟩ := ih hrest
        refine ⟨outer, (⟨before.append inner, blanks⟩, s) :: items, ?_, ?_⟩
        · rw [Spelling.writeItems, Blanks.append, List.append_assoc]
          rfl
        · rw [Spelling.addItems, hslot]
          dsimp only
          rw [hs]
          exact hitems

theorem spells_readRecord (k : Kind) (bound room : Nat) :
    Spells (readRecord k bound room) (Spelling.recordMeaning k room) := by
  intro cs node rest h
  unfold readRecord at h
  obtain ⟨⟨token, cs₁⟩, htoken, hbody⟩ := bind_eq_ok.mp h
  have hspelled := readToken_eq_ok spelledEscape_full htoken
  cases token with
  | scalar v => cases hbody
  | openObject =>
    obtain ⟨room', hroom, hbody⟩ := bind_eq_ok.mp hbody
    obtain ⟨⟨draft, cs₂⟩, hmembers, hbody⟩ := bind_eq_ok.mp hbody
    obtain ⟨node', hnode, hbody⟩ := bind_eq_ok.mp hbody
    cases hbody
    obtain ⟨blanks, members, rfl, hfold⟩ :=
      objectMembers_eq_ok (fun name draft => spellsMember_readField bound room' name draft) hmembers
    refine ⟨leadingBlanks cs, .object blanks members, eq_blanks_append hspelled, ?_⟩
    have hadd : foldMembers (Spelling.addField room') (.blank k) members = .ok draft := hfold
    rw [Spelling.recordMeaning, hroom, ok_bind, hadd]
    exact hnode
  | openArray =>
    obtain ⟨room', hroom, hbody⟩ := bind_eq_ok.mp hbody
    obtain ⟨⟨draft, cs₂⟩, hitems, hbody⟩ := bind_eq_ok.mp hbody
    obtain ⟨node', hnode, hbody⟩ := bind_eq_ok.mp hbody
    cases hbody
    obtain ⟨blanks, items, rfl, hadd⟩ := readItems_eq_ok hitems
    refine ⟨leadingBlanks cs, .array blanks items, eq_blanks_append hspelled, ?_⟩
    rw [Spelling.recordMeaning, hroom, ok_bind, hadd]
    exact hnode

/-! ### Loading -/

theorem readAll_eq_ok {α : Type} {read : Reader α} {f : Spelling → Except Fault α} (hread : Spells read f)
    {text : String} {a : α} (h : readAll read text.toList = .ok a) :
    ∃ (around : Around) (s : Spelling), text = s.textIn around ∧ f s = .ok a := by
  obtain ⟨⟨a', rest⟩, hvalue, hbody⟩ := bind_eq_ok.mp h
  obtain ⟨before, s, hcs, hs⟩ := hread text.toList a' rest hvalue
  have hrest : skipBlanks rest = [] := by
    dsimp only at hbody
    split at hbody
    · assumption
    · cases hbody
  have hblanks : rest = (leadingBlanks rest).chars := by
    have happend := eq_blanks_append hrest
    rwa [List.append_nil] at happend
  simp only [hrest] at hbody
  cases hbody
  refine ⟨⟨before, leadingBlanks rest⟩, s, ?_, hs⟩
  rw [Spelling.textIn, ← hblanks, ← hcs, String.ofList_toList]

end SyntaxTree.Json

namespace SyntaxTree

open Json

/-- A text that loads as a node is a spelling of it between blanks. -/
theorem Node.load_eq_ok {text : String} {node : Node} (h : Node.load text = .ok node) :
    ∃ (around : Around) (s : Spelling), text = s.textIn around ∧ s.nodeMeaning maxDepth = .ok node :=
  readAll_eq_ok (spells_readNode _ _) h

theorem Node.loadRecord_eq_ok {k : Kind} {text : String} {node : Node}
    (h : Node.loadRecord k text = .ok node) :
    ∃ (around : Around) (s : Spelling), text = s.textIn around ∧ s.recordMeaning k maxDepth = .ok node :=
  readAll_eq_ok (spells_readRecord k _ _) h

end SyntaxTree
