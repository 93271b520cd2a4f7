import Mathlib.Data.List.Forall2
import Mathlib.Tactic.MkIffOfInductiveProp
import SyntaxTree.Proofs.Walk

/-!
Equality of trees against what is written of them. What is no number equals nothing, and the two zeros are equal but
are written in different ways; all else that is equal is identical. So equality is symmetric and transitive on all
trees, a tree equals itself exactly if it holds nothing that is no number, and a tree without a zero has its texts in
common with every tree that it equals. Two trees agree, in whatever sense their numbers do, exactly if their roots
agree and their children agree one by one; each law goes up the tree by that step.
-/

namespace SyntaxTree

/-! ### Lists related one by one -/

section

variable {α : Type} {R S : α → α → Prop} {as bs cs : List α}

theorem forall₂_imp_of_mem (h : ∀ a ∈ as, ∀ b, R a b → S a b) (hab : List.Forall₂ R as bs) : List.Forall₂ S as bs := by
  induction hab with
  | nil => exact .nil
  | cons hhead _ ih =>
    exact .cons (h _ List.mem_cons_self _ hhead) (ih fun a ha => h a (List.mem_cons_of_mem _ ha))

theorem forall₂_trans_of_mem (h : ∀ a ∈ as, ∀ b c, R a b → R b c → R a c) (hab : List.Forall₂ R as bs)
    (hbc : List.Forall₂ R bs cs) : List.Forall₂ R as cs := by
  induction hab generalizing cs with
  | nil =>
    cases hbc
    exact .nil
  | cons hhead _ ih =>
    cases hbc with
    | cons hhead' htail =>
      exact .cons (h _ List.mem_cons_self _ _ hhead hhead') (ih (fun a ha => h a (List.mem_cons_of_mem _ ha)) htail)

end

/-! ### Numbers -/

namespace Double

variable {x y z : Double}

theorem eqv_iff : x.eqv y = true ↔
    x.isNaN = false ∧ y.isNaN = false ∧ (x = y ∨ x.magnitude = 0 ∧ y.magnitude = 0) := by
  simp [eqv, and_assoc]

theorem eqv_self_iff : x.eqv x = true ↔ x.isNaN = false := by simp [eqv_iff]

theorem eqv_symm (h : x.eqv y = true) : y.eqv x = true := by
  obtain ⟨hx, hy, hvalue⟩ := eqv_iff.mp h
  refine eqv_iff.mpr ⟨hy, hx, ?_⟩
  rcases hvalue with rfl | ⟨hzero, hzero'⟩
  · exact .inl rfl
  · exact .inr ⟨hzero', hzero⟩

theorem eqv_trans (hxy : x.eqv y = true) (hyz : y.eqv z = true) : x.eqv z = true := by
  obtain ⟨hx, -, hvalue⟩ := eqv_iff.mp hxy
  obtain ⟨-, hz, hvalue'⟩ := eqv_iff.mp hyz
  refine eqv_iff.mpr ⟨hx, hz, ?_⟩
  rcases hvalue with rfl | ⟨hzero, hzero'⟩
  · exact hvalue'
  · rcases hvalue' with rfl | ⟨-, hzero''⟩
    · exact .inr ⟨hzero, hzero'⟩
    · exact .inr ⟨hzero, hzero''⟩

/-- Equal numbers are the same bit for bit, zeros aside. -/
theorem same_of_eqv (hzero : x.magnitude ≠ 0) (h : x.eqv y = true) : x.same y = true := by
  obtain ⟨-, -, rfl | ⟨hzero', -⟩⟩ := eqv_iff.mp h
  · simp [same]
  · exact absurd hzero' hzero

theorem eqv_of_same (hnan : x.isNaN = false) (h : x.same y = true) : x.eqv y = true := by
  have hxy : x = y := by simpa [same, hnan] using h
  rw [← hxy]
  exact eqv_self_iff.mpr hnan

end Double

namespace Node

/-! ### Roots and children -/

/-- What two nodes that agree have in common, the nodes below them aside. -/
@[mk_iff]
structure RootsAgree (numbers : Double → Double → Bool) (a b : Node) : Prop where
  kind_eq : a.kind = b.kind
  ownText_eq : a.ownText = b.ownText
  numbers_agree : ∀ x y, a = number x → b = number y → numbers x y = true

section

variable {numbers numbers' : Double → Double → Bool} {a b c : Node}

theorem agreeAll_iff {as bs : List Node} :
    agreeAll numbers as bs = true ↔ List.Forall₂ (fun a b => a.agree numbers b = true) as bs := by
  induction as generalizing bs with
  | nil => cases bs <;> simp [agreeAll]
  | cons a as ih => cases bs <;> simp [agreeAll, ih]

/-- Two trees agree exactly if their roots do and their children agree one by one. -/
theorem agree_iff : a.agree numbers b = true ↔ RootsAgree numbers a b ∧
    List.Forall₂ (fun child child' => child.agree numbers child' = true) a.children b.children := by
  rw [rootsAgree_iff]
  cases a <;> cases b <;> simp [agree, kind, ownText, children, agreeAll_iff, and_comm, String.toList_inj]

theorem mem_nodes_iff {node : Node} : node ∈ a.nodes ↔ node = a ∨ ∃ child ∈ a.children, node ∈ child.nodes := by
  rw [nodes_eq, List.mem_cons, List.mem_flatMap]

theorem exists_number_of_kind (h : a.kind = .numericLiteral) : ∃ x, a = number x := by
  cases a with
  | number x => exact ⟨x, rfl⟩
  | _ => cases h

theorem RootsAgree.symm (hnumbers : ∀ x y, numbers x y = true → numbers y x = true) (h : RootsAgree numbers a b) :
    RootsAgree numbers b a where
  kind_eq := h.kind_eq.symm
  ownText_eq := h.ownText_eq.symm
  numbers_agree := fun x y hx hy => hnumbers y x (h.numbers_agree y x hy hx)

theorem RootsAgree.trans (hnumbers : ∀ x y z, numbers x y = true → numbers y z = true → numbers x z = true)
    (hab : RootsAgree numbers a b) (hbc : RootsAgree numbers b c) : RootsAgree numbers a c where
  kind_eq := hab.kind_eq.trans hbc.kind_eq
  ownText_eq := hab.ownText_eq.trans hbc.ownText_eq
  numbers_agree := by
    rintro x z rfl rfl
    obtain ⟨y, rfl⟩ := exists_number_of_kind hbc.kind_eq
    exact hnumbers x y z (hab.numbers_agree x y rfl rfl) (hbc.numbers_agree y z rfl rfl)

/-! ### Laws of agreement -/

theorem agree_symm (hnumbers : ∀ x y, numbers x y = true → numbers y x = true) (h : a.agree numbers b = true) :
    b.agree numbers a = true := by
  induction a using childInduction generalizing b with
  | h a ih =>
    obtain ⟨hroots, hchildren⟩ := agree_iff.mp h
    have hflipped : List.Forall₂ (flip fun child' child => child'.agree numbers child = true) a.children b.children :=
      forall₂_imp_of_mem (fun child hchild _ => ih child hchild) hchildren
    exact agree_iff.mpr ⟨hroots.symm hnumbers, hflipped.flip⟩

theorem agree_trans (hnumbers : ∀ x y z, numbers x y = true → numbers y z = true → numbers x z = true)
    (hab : a.agree numbers b = true) (hbc : b.agree numbers c = true) : a.agree numbers c = true := by
  induction a using childInduction generalizing b c with
  | h a ih =>
    obtain ⟨hroots, hchildren⟩ := agree_iff.mp hab
    obtain ⟨hroots', hchildren'⟩ := agree_iff.mp hbc
    exact agree_iff.mpr ⟨hroots.trans hnumbers hroots',
      forall₂_trans_of_mem (fun child hchild _ _ => ih child hchild) hchildren hchildren'⟩

/-- A tree agrees with itself exactly if each of its numbers does. -/
theorem agree_self_iff : a.agree numbers a = true ↔ ∀ x, number x ∈ a.nodes → numbers x x = true := by
  induction a using childInduction with
  | h a ih =>
    rw [agree_iff, List.forall₂_same]
    constructor
    · rintro ⟨hroots, hchildren⟩ x hx
      rcases mem_nodes_iff.mp hx with hroot | ⟨child, hchild, hx⟩
      · exact hroots.numbers_agree x x hroot.symm hroot.symm
      · exact (ih child hchild).mp (hchildren child hchild) x hx
    · intro h
      refine ⟨⟨rfl, rfl, ?_⟩, fun child hchild => ?_⟩
      · rintro x y rfl hy
        cases hy
        exact h x (mem_nodes_iff.mpr (.inl rfl))
      · exact (ih child hchild).mpr fun x hx => h x (mem_nodes_iff.mpr (.inr ⟨child, hchild, hx⟩))

/-- Trees that agree in one sense agree in another if the numbers of the first tree allow for it. -/
theorem agree_imp (hnumbers : ∀ x, number x ∈ a.nodes → ∀ y, numbers x y = true → numbers' x y = true)
    (h : a.agree numbers b = true) : a.agree numbers' b = true := by
  induction a using childInduction generalizing b with
  | h a ih =>
    obtain ⟨hroots, hchildren⟩ := agree_iff.mp h
    refine agree_iff.mpr ⟨⟨hroots.kind_eq, hroots.ownText_eq, ?_⟩, forall₂_imp_of_mem ?_ hchildren⟩
    · rintro x y rfl rfl
      exact hnumbers x (mem_nodes_iff.mpr (.inl rfl)) y (hroots.numbers_agree x y rfl rfl)
    · intro child hchild child' hagree
      exact ih child hchild (fun x hx => hnumbers x (mem_nodes_iff.mpr (.inr ⟨child, hchild, hx⟩))) hagree

end

/-! ### Equality -/

theorem eqv_symm {a b : Node} (h : a.eqv b = true) : b.eqv a = true := agree_symm (fun _ _ => Double.eqv_symm) h

theorem eqv_trans {a b c : Node} (hab : a.eqv b = true) (hbc : b.eqv c = true) : a.eqv c = true :=
  agree_trans (fun _ _ _ => Double.eqv_trans) hab hbc

/-- A tree equals itself exactly if each of its numbers is one. -/
theorem eqv_self_iff_numbers {a : Node} : a.eqv a = true ↔ ∀ x, number x ∈ a.nodes → x.isNaN = false := by
  rw [eqv, agree_self_iff]
  simp only [Double.eqv_self_iff]

theorem eqv_of_identical {a b : Node} (hnumbers : ∀ x, number x ∈ a.nodes → x.isNaN = false)
    (h : a.identical b = true) : a.eqv b = true :=
  agree_imp (fun x hx _ => Double.eqv_of_same (hnumbers x hx)) h

/-- Equal trees are identical if no number of the first is a zero. -/
theorem identical_of_eqv {a b : Node} (hzero : ∀ x, number x ∈ a.nodes → x.magnitude ≠ 0)
    (h : a.eqv b = true) : a.identical b = true :=
  agree_imp (fun x hx _ => Double.same_of_eqv (hzero x hx)) h

theorem canonical_canonical (node : Node) : node.canonical.canonical = node.canonical :=
  canonical_eq_of_toValue (toValue_canonical node)

theorem eqv_self_iff {a : Node} : a.eqv a = true ↔ a.hasNaN = false := by
  rw [← Bool.not_eq_true', ← eqv_canonical]
  constructor
  · intro h
    have hidentical : a.identical a.canonical = true := (identical_iff a a.canonical).mpr a.canonical_canonical.symm
    exact eqv_symm (eqv_of_identical (eqv_self_iff_numbers.mp h) hidentical)
  · exact fun h => eqv_trans (eqv_symm h) h

theorem json_canonical (node : Node) : node.canonical.json = node.json := by
  rw [json, toValue_canonical, json]

theorem canonical_eq_of_json {a b : Node} (h : a.json = b.json) : a.canonical = b.canonical :=
  canonical_eq_of_toValue (Json.Value.text_injective (isReadable_toValue a) (isReadable_toValue b) h)

/-- Equality is symmetric and transitive, a tree equals itself exactly if it holds nothing that is no number, and equal
trees have one kind and equal children. Equal trees are written alike in both ways unless the first has a zero among
its numbers; and trees that are written alike in JSON are equal unless some number is none. -/
theorem eqv_consistent (a b c : Node) :
    a.eqv b = b.eqv a ∧
    (a.eqv b = true → b.eqv c = true → a.eqv c = true) ∧
    (a.eqv a = true ↔ a.hasNaN = false) ∧
    (a.eqv b = true → a.kind = b.kind ∧
      List.Forall₂ (fun child child' => child.eqv child' = true) a.children b.children) ∧
    (a.eqv b = true → (∀ x, number x ∈ a.nodes → x.magnitude ≠ 0) → a.text = b.text ∧ a.json = b.json) ∧
    (a.hasNaN = false → a.json = b.json → a.eqv b = true) := by
  refine ⟨Bool.eq_iff_iff.mpr ⟨eqv_symm, eqv_symm⟩, eqv_trans, eqv_self_iff, ?_, ?_, ?_⟩
  · intro h
    obtain ⟨hroots, hchildren⟩ := agree_iff.mp h
    exact ⟨hroots.kind_eq, hchildren⟩
  · intro h hzero
    have hcanonical : a.canonical = b.canonical := (identical_iff a b).mp (identical_of_eqv hzero h)
    constructor
    · rw [← text_canonical a, hcanonical, text_canonical]
    · rw [← json_canonical a, hcanonical, json_canonical]
  · intro hnan h
    have hidentical : a.identical b = true := (identical_iff a b).mpr (canonical_eq_of_json h)
    exact eqv_of_identical (eqv_self_iff_numbers.mp (eqv_self_iff.mpr hnan)) hidentical

/-- A sum over a number and a string. -/
def sumOver (x : Double) : Node := .binary (.number x) "+" (.string "0")

/-- The sums over the two zeros are equal and differ in their texts; the sums over an integer and over its bit pattern
are equal and have one text. -/
theorem eqv_consistent_sums :
    ((sumOver (.ofBits 0)).eqv (sumOver (.ofBits 0x8000000000000000)) = true ∧
      (sumOver (.ofBits 0x8000000000000000)).eqv (sumOver (.ofInt 0)) = true ∧
      (sumOver (.ofBits 0)).eqv (sumOver (.ofInt 0)) = true ∧
      (sumOver (.ofBits 0)).text ≠ (sumOver (.ofBits 0x8000000000000000)).text) ∧
    (sumOver (.ofInt 1)).hasNaN = false ∧ (∀ x, number x ∈ (sumOver (.ofInt 1)).nodes → x.magnitude ≠ 0) ∧
    (sumOver (.ofInt 1)).eqv (sumOver (.ofBits 0x3FF0000000000000)) = true ∧
    List.Forall₂ (fun child child' => child.eqv child' = true) (sumOver (.ofInt 1)).children
      (sumOver (.ofBits 0x3FF0000000000000)).children ∧
    (sumOver (.ofInt 1)).text = (sumOver (.ofBits 0x3FF0000000000000)).text ∧
    (sumOver (.ofInt 1)).json = (sumOver (.ofBits 0x3FF0000000000000)).json := by
  have hzeros : (sumOver (.ofBits 0)).eqv (sumOver (.ofBits 0x8000000000000000)) = true := by decide +kernel
  have hback : (sumOver (.ofBits 0x8000000000000000)).eqv (sumOver (.ofInt 0)) = true := by decide +kernel
  have hnan : (sumOver (.ofInt 1)).hasNaN = false := by decide +kernel
  have hjson : (sumOver (.ofInt 1)).json = (sumOver (.ofBits 0x3FF0000000000000)).json := by decide +kernel
  have hone : ∀ x, number x ∈ (sumOver (.ofInt 1)).nodes → x.magnitude ≠ 0 := by
    have hnodes : (sumOver (.ofInt 1)).nodes = [sumOver (.ofInt 1), .number (.ofInt 1), .string "0"] := by
      decide +kernel
    intro x hx
    rw [hnodes] at hx
    have hone : x = .ofInt 1 := by simpa [sumOver] using hx
    rw [hone]
    decide +kernel
  obtain ⟨-, htrans, -⟩ :=
    eqv_consistent (sumOver (.ofBits 0)) (sumOver (.ofBits 0x8000000000000000)) (sumOver (.ofInt 0))
  obtain ⟨-, -, -, hbelow, htexts, hequal⟩ :=
    eqv_consistent (sumOver (.ofInt 1)) (sumOver (.ofBits 0x3FF0000000000000)) (sumOver (.ofInt 1))
  exact ⟨⟨hzeros, hback, htrans hzeros hback, by decide +kernel⟩, hnan, hone, hequal hnan hjson,
    (hbelow (hequal hnan hjson)).2, htexts (hequal hnan hjson) hone⟩

end Node

end SyntaxTree
