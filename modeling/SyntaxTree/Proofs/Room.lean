import SyntaxTree.Proofs.ValueSpelling

/-!
Room for brackets. A reader of a canonical text can fail for one reason only, that a bracket too many opens,
so its outcome is told by how much room it needs. Where one reader follows another the greater need counts,
and a bracket needs one more than what stands inside it.
-/

namespace SyntaxTree.Json

/-- The outcome of what needs room for `needed` brackets inside each other and gives `a`. -/
def within {α : Type} (needed room : Nat) (a : α) : Except Fault α :=
  if needed ≤ room then .ok a else .error .tooDeep

section

variable {α β : Type} {room : Nat}

theorem within_of_le {needed : Nat} (h : needed ≤ room) (a : α) : within needed room a = .ok a := if_pos h

theorem within_zero (room : Nat) (a : α) : within 0 room a = .ok a := if_pos (Nat.zero_le room)

theorem within_bind {m n : Nat} {a : α} {b : β} {f : α → Except Fault β} (h : f a = within n room b) :
    (within m room a >>= f) = within (max m n) room b := by
  by_cases hm : m ≤ room
  · rw [within, if_pos hm, ok_bind, h, within, within]
    by_cases hn : n ≤ room
    · rw [if_pos hn, if_pos (Nat.max_le.mpr ⟨hm, hn⟩)]
    · rw [if_neg hn, if_neg fun hmax => hn (Nat.max_le.mp hmax).2]
  · rw [within, if_neg hm, error_bind, within, if_neg fun hmax => hm (Nat.max_le.mp hmax).1]

theorem within_bind_ok {m : Nat} {a : α} {b : β} {f : α → Except Fault β} (h : f a = .ok b) :
    (within m room a >>= f) = within m room b := by
  have hbind := within_bind (m := m) (h.trans (within_zero room b).symm)
  rwa [Nat.max_zero] at hbind

theorem enter_bind {n : Nat} {a : α} {f : Nat → Except Fault α} (h : ∀ room, f room = within n room a) :
    (enter room >>= f) = within (n + 1) room a := by
  cases room with
  | zero => rfl
  | succ room =>
    rw [enter, ok_bind, h, within, within]
    by_cases hn : n ≤ room
    · rw [if_pos hn, if_pos (Nat.succ_le_succ hn)]
    · rw [if_neg hn, if_neg fun hsucc => hn (Nat.le_of_succ_le_succ hsucc)]

end

theorem Spelling.meaning_array (room : Nat) (blanks : Blanks) (items : List (Around × Spelling)) :
    (Spelling.array blanks items).meaning room = (do
      let room ← enter room
      .ok (.array (← itemsMeaning room items))) := by
  cases room <;> rfl

theorem Spelling.meaning_object (room : Nat) (blanks : Blanks) (members : List (Label × Spelling)) :
    (Spelling.object blanks members).meaning room = (do
      let room ← enter room
      .ok (.object (← membersMeaning room members))) := by
  cases room <;> rfl

theorem meaning_eq_within {s : Spelling} {v : Value} (hs : s.isScalar = true) (hv : s.meaning 0 = .ok v)
    (room : Nat) : s.meaning room = within 0 room v := by
  rw [within_zero, Spelling.meaning_of_isScalar hs, hv]

namespace Value

theorem itemsMeaning_itemsSpelling {items : List Value}
    (hitems : ∀ item ∈ items, item.IsReadable → ∀ room, item.spelling.meaning room = within item.depth room item)
    (h : ItemsReadable items) (room : Nat) :
    Spelling.itemsMeaning room (itemsSpelling items) = within (itemsDepth items) room items := by
  induction items with
  | nil => exact (within_zero room _).symm
  | cons item items ih =>
    obtain ⟨hitem, hrest⟩ := h
    rw [itemsSpelling, Spelling.itemsMeaning, itemsDepth, hitems item List.mem_cons_self hitem]
    apply within_bind
    rw [ih (fun item h => hitems item (List.mem_cons_of_mem _ h)) hrest]
    exact within_bind_ok rfl

theorem membersMeaning_membersSpelling {members : List (String × Value)}
    (hmembers : ∀ member ∈ members, member.2.IsReadable →
      ∀ room, member.2.spelling.meaning room = within member.2.depth room member.2)
    (h : MembersReadable members) (room : Nat) :
    Spelling.membersMeaning room (membersSpelling members) = within (membersDepth members) room members := by
  induction members with
  | nil => exact (within_zero room _).symm
  | cons member members ih =>
    obtain ⟨hmember, hrest⟩ := h
    rw [membersSpelling, Spelling.membersMeaning, meaning_spelledString, ok_bind, membersDepth,
      hmembers member List.mem_cons_self hmember]
    apply within_bind
    rw [ih (fun member h => hmembers member (List.mem_cons_of_mem _ h)) hrest]
    exact within_bind_ok rfl

/-- The compact text of a value means the value, where there is room for its brackets. -/
theorem meaning_spelling (v : Value) (h : v.IsReadable) (room : Nat) :
    v.spelling.meaning room = within v.depth room v := by
  induction v using Value.induction generalizing room with
  | null => exact meaning_eq_within rfl rfl room
  | bool value => exact meaning_eq_within rfl rfl room
  | integer n =>
    exact meaning_eq_within (s := .number (spelledInteger n)) rfl (value_spelledInteger h) room
  | float x =>
    have hfinite : x.isFinite = true := h
    rw [spelling, dif_pos hfinite]
    exact meaning_eq_within (s := .number (x.spelling hfinite)) rfl (x.value_spelling hfinite) room
  | string text =>
    have hstring : Spelling.meaning 0 (.string (spelledString text)) = .ok (.string text) := by
      rw [Spelling.meaning, meaning_spelledString, ok_bind]
    exact meaning_eq_within rfl hstring room
  | array items ih =>
    rw [spelling, Spelling.meaning_array, depth]
    apply enter_bind
    intro room
    rw [itemsMeaning_itemsSpelling ih h]
    exact within_bind_ok rfl
  | object members ih =>
    rw [spelling, Spelling.meaning_object, depth]
    apply enter_bind
    intro room
    rw [membersMeaning_membersSpelling ih h]
    exact within_bind_ok rfl

end Value

end SyntaxTree.Json
