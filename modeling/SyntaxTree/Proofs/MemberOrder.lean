import SyntaxTree.Proofs.Slots
import SyntaxTree.Proofs.Fits

/-!
The order of the members of an object. Two fields filled in one after the other may be filled in the other way
round, since each sets its own part of the record; so members that fill in a record do so in any order, and the
tag is found wherever it stands. Members that are neither the tag nor a field may be left out or put in.
-/

namespace SyntaxTree

open Json

/-- Steps that can be taken one after the other whenever they can be taken the other way round carry a state through
a list in any order. -/
theorem Json.foldlM_perm {α σ : Type} {f : σ → α → Except Fault σ}
    (hcomm : ∀ {a b state next last}, f state a = .ok next → f next b = .ok last →
      ∃ other, f state b = .ok other ∧ f other a = .ok last)
    {as bs : List α} (hperm : as.Perm bs) {state last : σ} (h : as.foldlM f state = .ok last) :
    bs.foldlM f state = .ok last := by
  induction hperm generalizing state with
  | nil => exact h
  | cons a hperm ih =>
    rw [List.foldlM_cons] at h ⊢
    obtain ⟨next, hnext, h⟩ := bind_eq_ok.mp h
    rw [hnext, ok_bind, ih h]
  | swap a b as =>
    simp only [List.foldlM_cons] at h ⊢
    obtain ⟨next, hnext, h⟩ := bind_eq_ok.mp h
    obtain ⟨second, hsecond, h⟩ := bind_eq_ok.mp h
    obtain ⟨other, hother, hother'⟩ := hcomm hnext hsecond
    rw [hother, ok_bind, hother', ok_bind, h]
  | trans hperm hperm' ih ih' => exact ih' (ih h)

namespace Draft

/-! ### Slots -/

theorem slot_of_fills {draft : Draft} {name : String} {place : Place} {fill : place.Content → Draft}
    (h : Fills draft name place fill) : draft.slot name = .vacant place fill := by
  cases h with
  | body => rfl
  | number => rfl
  | symbol => rfl
  | left parts h => simp [slot, Slot.of, h]
  | right parts h => simp [slot, Slot.of, h]
  | operator parts h => simp [slot, Slot.of, h]
  | text => rfl

theorem of_ne_unknown {α : Type} (current : Option α) (place : Place) (fill : place.Content → Draft) :
    Slot.of current place fill ≠ .unknown := by
  cases current <;> simp [Slot.of]

theorem of_eq_filled_iff {α : Type} (current : Option α) (place : Place) (fill : place.Content → Draft) :
    Slot.of current place fill = .filled ↔ current.isSome = true := by
  cases current <;> simp [Slot.of]

/-- A record has the fields of its kind and no others. -/
theorem slot_eq_unknown_iff {draft : Draft} {name : String} :
    draft.slot name = .unknown ↔ name ∉ draft.kind.fields := by
  cases draft with
  | program body? => by_cases h : name = "body" <;> simp [slot, kind, Kind.fields, h, of_ne_unknown]
  | number value? => by_cases h : name = "value" <;> simp [slot, kind, Kind.fields, h, of_ne_unknown]
  | null => simp [slot, kind, Kind.fields]
  | identifier symbol? => by_cases h : name = "symbol" <;> simp [slot, kind, Kind.fields, h, of_ne_unknown]
  | binary parts =>
    by_cases hleft : name = "left"
    · simp [slot, kind, Kind.fields, hleft, of_ne_unknown]
    by_cases hright : name = "right"
    · simp [slot, kind, Kind.fields, hright, of_ne_unknown]
    by_cases hoperator : name = "operator"
    · simp [slot, kind, Kind.fields, hoperator, of_ne_unknown]
    · simp [slot, kind, Kind.fields, hleft, hright, hoperator]
  | string value? => by_cases h : name = "value" <;> simp [slot, kind, Kind.fields, h, of_ne_unknown]

/-- Of two fields filled one after the other, the second is vacant before the first is filled, and the first is
still vacant once the second is; filled either way, the record is the same. -/
theorem fills_swap {draft : Draft} {name name' : String} {place place' : Place} {fill : place.Content → Draft}
    {fill' : place'.Content → Draft} {content : place.Content} (h : Fills draft name place fill)
    (h' : Fills (fill content) name' place' fill') :
    ∃ (first : place'.Content → Draft) (second : place'.Content → place.Content → Draft),
      draft.slot name' = .vacant place' first ∧
      ∀ content', (first content').slot name = .vacant place (second content') ∧
        second content' content = fill' content' := by
  cases h with
  | body => cases h'
  | number => cases h'
  | symbol => cases h'
  | text => cases h'
  | left parts hleft =>
    cases h' with
    | left _ h => cases h
    | right _ h =>
      exact ⟨_, _, slot_of_fills (.right parts h), fun _ => ⟨slot_of_fills (.left (parts.right _) hleft), rfl⟩⟩
    | operator _ h =>
      exact ⟨_, _, slot_of_fills (.operator parts h), fun _ => ⟨slot_of_fills (.left (parts.operator _) hleft), rfl⟩⟩
  | right parts hright =>
    cases h' with
    | right _ h => cases h
    | left _ h =>
      exact ⟨_, _, slot_of_fills (.left parts h), fun _ => ⟨slot_of_fills (.right (parts.left _) hright), rfl⟩⟩
    | operator _ h =>
      exact ⟨_, _, slot_of_fills (.operator parts h),
        fun _ => ⟨slot_of_fills (.right (parts.operator _) hright), rfl⟩⟩
  | operator parts hoperator =>
    cases h' with
    | operator _ h => cases h
    | left _ h =>
      exact ⟨_, _, slot_of_fills (.left parts h), fun _ => ⟨slot_of_fills (.operator (parts.left _) hoperator), rfl⟩⟩
    | right _ h =>
      exact ⟨_, _, slot_of_fills (.right parts h),
        fun _ => ⟨slot_of_fills (.operator (parts.right _) hoperator), rfl⟩⟩

theorem slot_binary_eq_filled_iff (parts : Builder) (name : String) :
    (binary parts).slot name = .filled ↔ (name = "left" ∧ parts.left?.isSome = true) ∨
      (name = "right" ∧ parts.right?.isSome = true) ∨ (name = "operator" ∧ parts.operator?.isSome = true) := by
  by_cases hleft : name = "left"
  · simp [slot, hleft, of_eq_filled_iff]
  by_cases hright : name = "right"
  · simp [slot, hright, of_eq_filled_iff]
  by_cases hoperator : name = "operator"
  · simp [slot, hoperator, of_eq_filled_iff]
  · simp [slot, hleft, hright, hoperator]

theorem slot_blank_ne_filled (k : Kind) (name : String) : (blank k).slot name ≠ .filled := by
  cases k with
  | program => by_cases h : name = "body" <;> simp [blank, slot, h, of_eq_filled_iff]
  | numericLiteral => by_cases h : name = "value" <;> simp [blank, slot, h, of_eq_filled_iff]
  | nullLiteral => simp [blank, slot]
  | identifier => by_cases h : name = "symbol" <;> simp [blank, slot, h, of_eq_filled_iff]
  | binaryExpression => simp [blank, slot_binary_eq_filled_iff]
  | stringLiteral => by_cases h : name = "value" <;> simp [blank, slot, h, of_eq_filled_iff]

/-- Filling a field fills no other. -/
theorem filled_of_fill {draft : Draft} {name name' : String} {place : Place} {fill : place.Content → Draft}
    (h : Fills draft name place fill) (content : place.Content) (hfilled : (fill content).slot name' = .filled) :
    name' = name ∨ draft.slot name' = .filled := by
  cases h with
  | body => by_cases hname : name' = "body" <;> simp_all [slot]
  | number => by_cases hname : name' = "value" <;> simp_all [slot]
  | symbol => by_cases hname : name' = "symbol" <;> simp_all [slot]
  | text => by_cases hname : name' = "value" <;> simp_all [slot]
  | left parts h =>
    rw [slot_binary_eq_filled_iff] at hfilled ⊢
    rcases hfilled with ⟨hname, -⟩ | hright | hoperator
    · exact .inl hname
    · exact .inr (.inr (.inl hright))
    · exact .inr (.inr (.inr hoperator))
  | right parts h =>
    rw [slot_binary_eq_filled_iff] at hfilled ⊢
    rcases hfilled with hleft | ⟨hname, -⟩ | hoperator
    · exact .inr (.inl hleft)
    · exact .inl hname
    · exact .inr (.inr (.inr hoperator))
  | operator parts h =>
    rw [slot_binary_eq_filled_iff] at hfilled ⊢
    rcases hfilled with hleft | hright | ⟨hname, -⟩
    · exact .inr (.inl hleft)
    · exact .inr (.inr (.inl hright))
    · exact .inl hname

/-- In a finished record every field is filled. -/
theorem filled_of_finish {draft : Draft} {node : Node} (h : draft.finish = .ok node) {name : String}
    (hname : name ∈ draft.kind.fields) : draft.slot name = .filled := by
  cases hslot : draft.slot name with
  | filled => rfl
  | unknown => exact absurd hname (slot_eq_unknown_iff.mp hslot)
  | vacant place fill =>
    cases fills_of_slot hslot with
    | body => cases h
    | number => cases h
    | symbol => cases h
    | text => cases h
    | left parts hleft =>
      rw [finish, hleft] at h
      cases h
    | right parts hright =>
      rw [finish, hright] at h
      obtain ⟨left, -, h⟩ := bind_eq_ok.mp h
      cases h
    | operator parts hoperator =>
      rw [finish, hoperator] at h
      obtain ⟨left, -, h⟩ := bind_eq_ok.mp h
      obtain ⟨right, -, h⟩ := bind_eq_ok.mp h
      cases h

/-! ### Filling in -/

section

variable {draft draft' : Draft} {name name' : String} {read read' : (place : Place) → Except Fault place.Content}

theorem fillWith_unknown (h : draft.slot name = .unknown) : draft.fillWith name read = .ok draft := by
  rw [fillWith, h]

theorem fillWith_vacant {place : Place} {fill : place.Content → Draft} (h : draft.slot name = .vacant place fill) :
    draft.fillWith name read = (do .ok (fill (← read place))) := by
  rw [fillWith, h]

theorem kind_fillWith (h : draft.fillWith name read = .ok draft') : draft'.kind = draft.kind := by
  rw [fillWith] at h
  split at h
  · cases h
    rfl
  · cases h
  · rename_i place fill hslot
    obtain ⟨content, -, h⟩ := bind_eq_ok.mp h
    cases h
    exact kind_fill hslot content

/-- Two fields that can be filled in one after the other can be filled in the other way round. -/
theorem fillWith_comm {filled : Draft} (h : draft.fillWith name read = .ok draft')
    (h' : draft'.fillWith name' read' = .ok filled) :
    ∃ other, draft.fillWith name' read' = .ok other ∧ other.fillWith name read = .ok filled := by
  cases hslot : draft.slot name with
  | unknown =>
    rw [fillWith_unknown hslot] at h
    cases h
    have hunknown : filled.slot name = .unknown := by
      rw [slot_eq_unknown_iff, kind_fillWith h', ← slot_eq_unknown_iff, hslot]
    exact ⟨filled, h', fillWith_unknown hunknown⟩
  | filled =>
    rw [fillWith, hslot] at h
    cases h
  | vacant place fill =>
    rw [fillWith_vacant hslot] at h
    obtain ⟨content, hcontent, h⟩ := bind_eq_ok.mp h
    cases h
    cases hslot' : (fill content).slot name' with
    | unknown =>
      rw [fillWith_unknown hslot'] at h'
      cases h'
      have hunknown : draft.slot name' = .unknown := by
        rw [slot_eq_unknown_iff, ← kind_fill hslot content, ← slot_eq_unknown_iff, hslot']
      exact ⟨draft, fillWith_unknown hunknown, by rw [fillWith_vacant hslot, hcontent, ok_bind]⟩
    | filled =>
      rw [fillWith, hslot'] at h'
      cases h'
    | vacant place' fill' =>
      rw [fillWith_vacant hslot'] at h'
      obtain ⟨content', hcontent', h'⟩ := bind_eq_ok.mp h'
      cases h'
      obtain ⟨first, second, hfirst, hsecond⟩ := fills_swap (fills_of_slot hslot) (fills_of_slot hslot')
      refine ⟨first content', by rw [fillWith_vacant hfirst, hcontent', ok_bind], ?_⟩
      rw [fillWith_vacant (hsecond content').1, hcontent, ok_bind, (hsecond content').2]

end

theorem fillMembers_perm {draft filled : Draft} {members members' : List (String × Value)}
    (hperm : members.Perm members') (h : fillMembers draft members = .ok filled) :
    fillMembers draft members' = .ok filled := by
  rw [fillMembers_eq_foldlM] at h ⊢
  refine foldlM_perm ?_ hperm h
  intro member member' start next last hnext hlast
  exact fillWith_comm hnext hlast

/-- Every field of a record that its members finish is among them. -/
theorem mem_names_of_finish {k : Kind} {members : List (String × Value)} {draft : Draft} {node : Node}
    (hfill : fillMembers (blank k) members = .ok draft) (hfinish : draft.finish = .ok node) {name : String}
    (hname : name ∈ k.fields) : name ∈ members.map Prod.fst := by
  rw [fillMembers_eq_foldlM] at hfill
  by_contra hmissing
  -- No step fills the field, as no member has its name.
  have hstep : ∀ member ∈ members, ∀ start filled : Draft, (start.kind = k ∧ start.slot name ≠ .filled) →
      start.fillWith member.1 (fun place => contentOfValue place member.2) = .ok filled →
      (filled.kind = k ∧ filled.slot name ≠ .filled) ∧ True := by
    rintro member hmember start filled ⟨hkind, hvacant⟩ hfill
    refine ⟨⟨(kind_fillWith hfill).trans hkind, ?_⟩, trivial⟩
    intro hfilled
    rw [fillWith] at hfill
    split at hfill
    · cases hfill
      exact hvacant hfilled
    · cases hfill
    · rename_i place fill hslot
      obtain ⟨content, -, hfill⟩ := bind_eq_ok.mp hfill
      cases hfill
      rcases filled_of_fill (fills_of_slot hslot) content hfilled with hname | hfilled
      · exact hmissing (hname ▸ List.mem_map_of_mem hmember)
      · exact hvacant hfilled
  obtain ⟨⟨hkind, hvacant⟩, -⟩ := foldlM_eq_ok hstep ⟨kind_blank k, slot_blank_ne_filled k name⟩ hfill
  exact hvacant (filled_of_finish hfinish (by rwa [hkind]))

end Draft

namespace Json

/-! ### The tag -/

/-- The tag after a member, which must not be a second one. -/
def judgeTag (tag? : Option Kind) (member : String × Value) : Except Fault (Option Kind) :=
  if member.1 = Node.tagName then
    if tag?.isSome then .error (.duplicate member.1) else do .ok (some (← kindOfValue member.2))
  else .ok tag?

theorem tagOfMembers_eq_foldlM (tag? : Option Kind) (members : List (String × Value)) :
    tagOfMembers tag? members = (do Draft.require Node.tagName (← members.foldlM judgeTag tag?)) := by
  induction members generalizing tag? with
  | nil => cases tag? <;> rfl
  | cons member members ih =>
    rw [tagOfMembers, List.foldlM_cons, judgeTag, bind_assoc]
    split
    · split
      · rfl
      · rw [bind_assoc]
        congr 1
        funext k
        exact ih (some k)
    · exact ih tag?

theorem judgeTag_comm {tag? next? last? : Option Kind} {member member' : String × Value}
    (h : judgeTag tag? member = .ok next?) (h' : judgeTag next? member' = .ok last?) :
    ∃ other?, judgeTag tag? member' = .ok other? ∧ judgeTag other? member = .ok last? := by
  by_cases hname : member.1 = Node.tagName
  · rw [judgeTag, if_pos hname] at h
    split at h
    · cases h
    · rename_i hfirst
      obtain ⟨k, hk, h⟩ := bind_eq_ok.mp h
      cases h
      by_cases hname' : member'.1 = Node.tagName
      · rw [judgeTag, if_pos hname', if_pos (show (some k).isSome = true from rfl)] at h'
        cases h'
      · rw [judgeTag, if_neg hname'] at h'
        cases h'
        refine ⟨tag?, by rw [judgeTag, if_neg hname'], ?_⟩
        rw [judgeTag, if_pos hname, if_neg hfirst, hk, ok_bind]
  · rw [judgeTag, if_neg hname] at h
    cases h
    exact ⟨last?, h', by rw [judgeTag, if_neg hname]⟩

/-- The tag of a node may stand anywhere among its members. -/
theorem tagOfMembers_perm {tag? : Option Kind} {members members' : List (String × Value)} {k : Kind}
    (hperm : members.Perm members') (h : tagOfMembers tag? members = .ok k) : tagOfMembers tag? members' = .ok k := by
  rw [tagOfMembers_eq_foldlM] at h ⊢
  obtain ⟨last?, hlast, h⟩ := bind_eq_ok.mp h
  have hlast' : members'.foldlM judgeTag tag? = .ok last? := by
    refine foldlM_perm ?_ hperm hlast
    intro member member' start next last hnext hlast
    exact judgeTag_comm hnext hlast
  rw [hlast', ok_bind, h]

/-- Only a member with the name of the tag is one. -/
theorem mem_names_of_tagOfMembers {members : List (String × Value)} {k : Kind}
    (h : tagOfMembers none members = .ok k) : Node.tagName ∈ members.map Prod.fst := by
  by_contra hmissing
  have hnone : tagOfMembers none members = .error (.missing Node.tagName) := by
    induction members with
    | nil => rfl
    | cons member members ih =>
      simp only [List.map_cons, List.mem_cons, not_or] at hmissing
      rw [tagOfMembers, if_neg (Ne.symm hmissing.1)] at h ⊢
      exact ih h hmissing.2
  rw [hnone] at h
  cases h

/-! ### Members that make no difference -/

theorem tagOfMembers_append {tag? : Option Kind} {members extra : List (String × Value)} {k : Kind}
    (hextra : ∀ member ∈ extra, member.1 ≠ Node.tagName) (h : tagOfMembers tag? members = .ok k) :
    tagOfMembers tag? (members ++ extra) = .ok k := by
  have hskip : ∀ tag? : Option Kind, extra.foldlM judgeTag tag? = .ok tag? := by
    intro tag?
    induction extra with
    | nil => rfl
    | cons member extra ih =>
      rw [List.foldlM_cons, judgeTag, if_neg (hextra member List.mem_cons_self), ok_bind,
        ih fun member h => hextra member (List.mem_cons_of_mem _ h)]
  rw [tagOfMembers_eq_foldlM] at h ⊢
  rw [List.foldlM_append, bind_assoc]
  simp only [hskip]
  exact h

theorem kind_fillMembers {draft filled : Draft} {members : List (String × Value)}
    (h : fillMembers draft members = .ok filled) : filled.kind = draft.kind := by
  rw [Draft.fillMembers_eq_foldlM] at h
  have hstep : ∀ member ∈ members, ∀ start next : Draft, start.kind = draft.kind →
      start.fillWith member.1 (fun place => contentOfValue place member.2) = .ok next →
      next.kind = draft.kind ∧ True :=
    fun member _ start next hkind hnext => ⟨(Draft.kind_fillWith hnext).trans hkind, trivial⟩
  exact (foldlM_eq_ok hstep rfl h).1

theorem fillMembers_append {draft filled : Draft} {members extra : List (String × Value)}
    (hextra : ∀ member ∈ extra, member.1 ∉ draft.kind.fields) (h : fillMembers draft members = .ok filled) :
    fillMembers draft (members ++ extra) = .ok filled := by
  have hskip : fillMembers filled extra = .ok filled := by
    rw [← kind_fillMembers h] at hextra
    induction extra with
    | nil => rw [fillMembers]
    | cons member extra ih =>
      rw [fillMembers, Draft.slot_eq_unknown_iff.mpr (hextra member List.mem_cons_self)]
      exact ih fun member h => hextra member (List.mem_cons_of_mem _ h)
  rw [Draft.fillMembers_eq_foldlM] at h hskip ⊢
  rw [List.foldlM_append, h, ok_bind, hskip]

end Json

end SyntaxTree
