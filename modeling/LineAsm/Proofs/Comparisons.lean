import LineAsm.Operation
import LineAsm.Proofs.WholeNumbers
import Mathlib.Data.String.Basic
import Mathlib.Order.Compare

set_option autoImplicit false

/-!
# Comparisons

A comparison of numbers is that of the rationals they stand for, and a comparison of texts is that
of the lexicographic order of their characters.
-/

namespace LineAsm

namespace Comparison

/-- What a comparison says of two members of an order. -/
def Holds {α : Type} [LinearOrder α] (c : Comparison) (a b : α) : Prop :=
  match c with
  | .equal => a = b
  | .unequal => a ≠ b
  | .greater => b < a
  | .greaterOrEqual => b ≤ a
  | .less => a < b
  | .lessOrEqual => a ≤ b

theorem holdsOf_iff {α : Type} [LinearOrder α] (c : Comparison) {o : Ordering} {a b : α}
    (h : o.Compares a b) : c.holdsOf o = true ↔ c.Holds a b := by
  cases c with
  | equal => exact beq_iff_eq.trans h.eq_eq
  | unequal => exact bne_iff_ne.trans (not_congr h.eq_eq)
  | greater => exact beq_iff_eq.trans h.eq_gt
  | greaterOrEqual => exact bne_iff_ne.trans h.ne_lt
  | less => exact beq_iff_eq.trans h.eq_lt
  | lessOrEqual => exact bne_iff_ne.trans h.ne_gt

end Comparison

namespace Number

theorem exists_toRat? {x : Number} (h : x.isFinite = true) : ∃ q : ℚ, x.toRat? = some q := by
  cases x with
  | finite s m => exact ⟨_, rfl⟩
  | nan | infinite _ => cases h

/-- Both numbers are counted in the same unit, so they compare like these counts. -/
theorem compares_of_toRat? {x y : Number} {q r : ℚ} (hx : x.toRat? = some q)
    (hy : y.toRat? = some r) : ∃ o, x.compare? y = some o ∧ o.Compares q r := by
  cases x with
  | nan | infinite _ => cases hx
  | finite s m =>
    cases y with
    | nan | infinite _ => cases hy
    | finite t l =>
      cases hx
      cases hy
      have hone : (0 : ℚ) < Magnitude.one := Nat.cast_pos.2 one_pos
      have hunits := (compare_iff (signed s m.units) (signed t l.units)).1 rfl
      refine ⟨_, rfl, ?_⟩
      generalize compare (signed s m.units) (signed t l.units) = o at hunits ⊢
      cases o with
      | lt => exact div_lt_div_of_pos_right (Int.cast_lt.2 hunits) hone
      | eq => exact congrArg (fun n : Int => (n : ℚ) / Magnitude.one) hunits
      | gt => exact div_lt_div_of_pos_right (Int.cast_lt.2 hunits) hone

end Number

namespace Comparison

theorem numbers_iff (c : Comparison) {x y : Number} {q r : ℚ} (hx : x.toRat? = some q)
    (hy : y.toRat? = some r) : c.numbers x y = true ↔ c.Holds q r := by
  obtain ⟨o, hcompare, ho⟩ := Number.compares_of_toRat? hx hy
  rw [numbers, hcompare]
  exact c.holdsOf_iff ho

theorem texts_iff (c : Comparison) (a b : String) : c.texts a b = true ↔ c.Holds a b := by
  refine c.holdsOf_iff ?_
  split_ifs with hlt heq
  · exact hlt
  · exact heq
  · exact lt_of_le_of_ne (not_lt.1 hlt) (Ne.symm heq)

end Comparison

end LineAsm
