import SyntaxTree.Proofs.RoundTrip

/-!
Trees that are identical, and what tells them apart. Two trees are identical if they have the same shape, the
same texts and the same numbers bit for bit, where all patterns that are no number count as one; this is to have
the same canonical tree. The JSON text of a tree is read back as its JSON form where there is room enough for its
brackets, so the text alone tells two trees apart, however deep they are.
-/

namespace SyntaxTree

open Json

namespace Double

/-- Whether two numbers are the same bit for bit, where all patterns that are no number count as one. -/
def same (x y : Double) : Bool := x == y || (x.isNaN && y.isNaN)

theorem same_iff (x y : Double) : x.same y = true ↔ x.canonical = y.canonical := by
  have hnan : nan.isNaN = true := by decide
  unfold same canonical
  cases hx : x.isNaN <;> cases hy : y.isNaN
  · simp
  · have hne : x ≠ y := by
      rintro rfl
      simp [hx] at hy
    have hne' : x ≠ nan := by
      rintro rfl
      simp [hx] at hnan
    simp [hne, hne']
  · have hne : x ≠ y := by
      rintro rfl
      simp [hx] at hy
    have hne' : nan ≠ y := by
      rintro rfl
      simp [hy] at hnan
    simp [hne, hne']
  · simp

theorem toValue_canonical (x : Double) : x.canonical.toValue = x.toValue := by
  cases hnan : x.isNaN with
  | true =>
    have hfinite : x.isFinite = false := by
      simp only [isNaN, isFinite, decide_eq_true_eq, decide_eq_false_iff_not] at *
      omega
    have htext : x.text = nan.text := by
      rw [text, text, textChars, textChars, if_pos hnan, if_pos (by decide)]
    rw [canonical, if_pos hnan, toValue, toValue, hfinite, if_neg (by decide), htext]
    rfl
  | false => rw [canonical_of_not_isNaN hnan]

end Double

namespace Node

/-- Whether two trees are identical, where all patterns that are no number count as one. -/
def identical (a b : Node) : Bool := a.agree Double.same b

mutual

theorem agree_same_iff : ∀ a b : Node, a.agree Double.same b = true ↔ a.canonical = b.canonical
  | program body, b => by cases b <;> simp [agree, canonical, agreeAll_same_iff body]
  | number x, b => by cases b <;> simp [agree, canonical, Double.same_iff]
  | null, b => by cases b <;> simp [agree, canonical]
  | identifier _, b => by cases b <;> simp [agree, canonical]
  | binary left operator right, b => by
    cases b <;> simp [agree, canonical, agree_same_iff left, agree_same_iff right]
    grind
  | string _, b => by cases b <;> simp [agree, canonical]

theorem agreeAll_same_iff : ∀ as bs : List Node,
    agreeAll Double.same as bs = true ↔ canonicalAll as = canonicalAll bs
  | [], bs => by cases bs <;> simp [agreeAll, canonicalAll]
  | a :: as, bs => by cases bs <;> simp [agreeAll, canonicalAll, agree_same_iff a, agreeAll_same_iff as]

end

/-- Trees are identical exactly if they have one canonical tree. -/
theorem identical_iff (a b : Node) : a.identical b = true ↔ a.canonical = b.canonical := agree_same_iff a b

theorem toValue_canonical (node : Node) : node.canonical.toValue = node.toValue := by
  induction node using induction with
  | program body ih =>
    have hbody : valuesOf (canonicalAll body) = valuesOf body := by
      induction body with
      | nil => rfl
      | cons node nodes ih' =>
        have hnode : tagged node.canonical.kind node.canonical.members = tagged node.kind node.members :=
          ih node List.mem_cons_self
        rw [canonicalAll, valuesOf, valuesOf, hnode, ih' fun node h => ih node (List.mem_cons_of_mem _ h)]
    rw [toValue, toValue, canonical, members, members, hbody]
    rfl
  | number x =>
    rw [toValue, toValue, canonical, members, members, Double.toValue_canonical]
    rfl
  | null => rfl
  | identifier symbol => rfl
  | binary left operator right ihLeft ihRight =>
    have hmembers : (binary left.canonical operator right.canonical).members =
        [("left", left.canonical.toValue), ("right", right.canonical.toValue), ("operator", .string operator)] := rfl
    rw [toValue, canonical, hmembers, ihLeft, ihRight]
    rfl
  | string value => rfl

end Node

/-! ### Texts -/

/-- Where there is room for its brackets, the compact text of a value loads as the value. -/
theorem Json.Value.load_text {v : Value} (h : v.IsReadable) {depth : Nat} (hdepth : v.depth ≤ depth) :
    Value.load depth v.text = .ok v := by
  rw [Value.text_eq_textIn, Value.load_textIn, Value.meaning_spelling v h, within_of_le hdepth]

theorem Json.Value.text_injective {v w : Value} (hv : v.IsReadable) (hw : w.IsReadable) (h : v.text = w.text) :
    v = w := by
  have hload : Value.load (max v.depth w.depth) v.text = .ok v := Value.load_text hv (Nat.le_max_left _ _)
  rw [h, Value.load_text hw (Nat.le_max_right _ _)] at hload
  cases hload
  rfl

namespace Node

theorem canonical_eq_of_toValue {a b : Node} (h : a.toValue = b.toValue) : a.canonical = b.canonical := by
  have hvalue := ofValue_toValue a
  rw [h, ofValue_toValue] at hvalue
  exact (Except.ok.inj hvalue).symm

/-- Two trees of any depth have one JSON text exactly if they are identical. So the two zeros are written in
different ways, and what is no number never as a string is. -/
theorem json_eq_iff :
    (∀ a b : Node, a.json = b.json ↔ a.identical b = true) ∧
    (number ⟨false, 0, by decide⟩).json ≠ (number ⟨true, 0, by decide⟩).json ∧
    ∀ x value, (number x).json ≠ (string value).json := by
  have hiff : ∀ a b : Node, a.json = b.json ↔ a.identical b = true := by
    intro a b
    rw [identical_iff]
    constructor
    · intro h
      exact canonical_eq_of_toValue (Value.text_injective (isReadable_toValue a) (isReadable_toValue b) h)
    · intro h
      rw [json, json, ← toValue_canonical a, ← toValue_canonical b, h]
  refine ⟨hiff, ?_, ?_⟩
  · intro h
    have hidentical := (hiff _ _).mp h
    revert hidentical
    decide
  · intro x value h
    have hidentical := (hiff _ _).mp h
    cases hidentical

end Node

end SyntaxTree
