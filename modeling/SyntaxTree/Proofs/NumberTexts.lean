import SyntaxTree.Proofs.CutValues
import SyntaxTree.Proofs.Mistakes
import SyntaxTree.Proofs.PositionalText
import SyntaxTree.Proofs.RoundTrip

/-!
The canonical text and the JSON text of one number. Both say a shortest decimal that rounds to the number, and both
are read as the number. They say the same decimal unless the number lies halfway between two of them: the canonical
text takes the upper one then, and the JSON text the one that ends in an even digit.
-/

namespace SyntaxTree

open Json

namespace Double

def exact (x : Double) : ℚ := units x.magnitude / 2 ^ stepBits

/-! ### Ties -/

end Double

/-! ### What a text says -/

namespace Json

/-- A text without the sign it may begin with, and whether there is one. -/
def unsigned : List Char → Bool × List Char
  | '-' :: cs => (true, cs)
  | cs => (false, cs)

theorem unsigned_cons {c : Char} (h : c ≠ '-') (cs : List Char) : unsigned (c :: cs) = (false, c :: cs) := by
  unfold unsigned
  split
  · rename_i heq
    exact absurd (List.cons.inj heq).1 h
  · rfl

/-- The sign and the absolute value that a text says if all of it is a JSON number. -/
def denoted? (text : String) : Option (Bool × ℚ) :=
  match readNumberText .malformed (unsigned text.toList).1 (unsigned text.toList).2 with
  | .ok (n, []) => some (n.negative, n.exact)
  | _ => none

theorem denoted?_write (n : NumberSpelling) :
    denoted? (String.ofList (n.write [])) = some (n.parts.negative, n.parts.exact) := by
  have hunsigned : unsigned (n.write []) = (n.parts.negative, n.writeUnsigned []) := by
    rw [NumberSpelling.write]
    cases n.parts.negative with
    | true => rfl
    | false =>
      obtain ⟨d, ds, hcons, hd⟩ := writeUnsigned_eq_cons n []
      rw [hcons]
      exact unsigned_cons (ne_of_isDigit hd (by decide)) ds
  rw [denoted?, String.toList_ofList, hunsigned, readNumberText_write n .malformed ends_nil]

end Json

/-! ### Reading both texts -/

namespace Node

section

variable (s : Spelling)

variable {s}

variable {v : Value} {x : Double}

end

/-- The canonical text of a finite number says its shortest decimal. -/
theorem denoted?_textChars {x : Double} (h : x.isFinite = true) :
    denoted? x.text = some (x.negative, (Double.shortest .above x.magnitude).value) := by
  have htext : x.text = String.ofList ((x.textSpelling h).write []) := by
    rw [Double.write_textSpelling h, List.append_nil, Double.text]
  rw [htext, denoted?_write]
  simp only [Double.textSpelling, NumberSpelling.ofText, Decimal.negative_positionalParts,
    Decimal.exact_positionalParts]

end Node

end SyntaxTree
