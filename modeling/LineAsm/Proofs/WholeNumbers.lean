import LineAsm.Number.Arithmetic
import Mathlib.Data.Rat.Floor

set_option autoImplicit false

/-!
# Whole numbers in double precision

A finite number stands for a rational. The whole numbers up to `2 ^ 53` are among the doubles, so
rounding leaves them alone: sums and differences that stay in this range are exact, and so are the
floors of numbers that lie in it.
-/

namespace LineAsm

theorem twoPow_lt_twoPow {a b : Nat} (h : a < b) : twoPow a < twoPow b :=
  Nat.pow_lt_pow_right (by decide) h

theorem mul_one_lt_unitLimit {n : Nat} (h : n ≤ twoPow 53) : n * Magnitude.one < unitLimit :=
  calc n * Magnitude.one
      ≤ twoPow 53 * Magnitude.one := Nat.mul_le_mul_right _ h
    _ = twoPow (53 + 1074) := by rw [Magnitude.one, twoPow_add]
    _ < unitLimit := twoPow_lt_twoPow (by decide)

/-- A whole number with at most 53 bits. -/
def Magnitude.ofWhole (n : Nat) (h : n ≤ twoPow 53) : Magnitude :=
  ⟨n * one, mul_one_lt_unitLimit h, spacing_dvd_mul n 1074 h⟩

namespace Number

/-- The rational that a finite number stands for. -/
def toRat? : Number → Option ℚ
  | .finite s m => some ((signed s m.units : ℚ) / (Magnitude.one : ℚ))
  | _ => none

theorem one_pos : 0 < Magnitude.one := twoPow_pos 1074

theorem one_ne_zero : (Magnitude.one : ℚ) ≠ 0 := Nat.cast_ne_zero.2 (Nat.ne_of_gt one_pos)

theorem signed_mul (s : Bool) (n d : Nat) : signed s (n * d) = signed s n * d := by
  cases s with
  | false => exact Int.natCast_mul n d
  | true => rw [signed, if_pos rfl, signed, if_pos rfl, Int.natCast_mul, Int.neg_mul]

theorem natAbs_signed (s : Bool) (n : Nat) : (signed s n).natAbs = n := by
  cases s <;> simp [signed]

theorem signed_natAbs (k : Int) : signed (k < 0) k.natAbs = k := by
  unfold signed
  by_cases h : k < 0
  · rw [if_pos (decide_eq_true h)]
    omega
  · rw [if_neg (by simpa using h)]
    omega

theorem toRat?_finite (s : Bool) {m : Magnitude} {n : Nat} (h : m.units = n * Magnitude.one) :
    (finite s m).toRat? = some (signed s n : ℚ) := by
  rw [toRat?, h, signed_mul, Int.cast_mul, Int.cast_natCast,
    mul_div_cancel_right₀ _ one_ne_zero]

theorem toRat?_finite_ofWhole (s : Bool) {n : Nat} (h : n ≤ twoPow 53) :
    (finite s (.ofWhole n h)).toRat? = some (signed s n : ℚ) := toRat?_finite s rfl

theorem ofFraction_whole (s : Bool) {n : Nat} (h : n ≤ twoPow 53) :
    ofFraction s n 1 = .finite s (.ofWhole n h) := ofUnits_units s (.ofWhole n h)

theorem toRat?_ofFraction_whole (s : Bool) {n : Nat} (h : n ≤ twoPow 53) :
    (ofFraction s n 1).toRat? = some (signed s n : ℚ) := by
  rw [ofFraction_whole s h, toRat?_finite_ofWhole]

theorem toRat?_ofNat {n : Nat} (h : n ≤ twoPow 53) : (ofNat n).toRat? = some ((n : Int) : ℚ) :=
  toRat?_ofFraction_whole false h

/-- A number that stands for an integer counts its units in ones. -/
theorem exists_of_toRat?_eq_intCast {x : Number} {k : Int} (h : x.toRat? = some (k : ℚ)) :
    ∃ s m, x = .finite s m ∧ signed s m.units = k * Magnitude.one := by
  cases x with
  | nan => cases h
  | infinite s => cases h
  | finite s m =>
    refine ⟨s, m, rfl, ?_⟩
    have hdiv := (div_eq_iff one_ne_zero).1 (Option.some.inj h)
    exact_mod_cast hdiv

theorem toRat?_ofSignedUnits {k : Int} (h : k.natAbs ≤ twoPow 53) (zeroNegative : Bool) :
    (ofSignedUnits (k * Magnitude.one) zeroNegative).toRat? = some (k : ℚ) := by
  have hone : (0 : Int) < Magnitude.one := Int.natCast_pos.2 one_pos
  unfold ofSignedUnits
  by_cases hk : k = 0
  · subst hk
    have hzero : signed zeroNegative Magnitude.zero.units = 0 := by cases zeroNegative <;> rfl
    rw [if_pos (Int.zero_mul _), toRat?, hzero, Int.cast_zero, zero_div]
  · have hne : k * Magnitude.one ≠ 0 := Int.mul_ne_zero hk (Int.ne_of_gt hone)
    have hneg : decide (k * (Magnitude.one : Int) < 0) = decide (k < 0) := by
      have hiff := Int.mul_lt_mul_right (b := k) (c := 0) hone
      rw [Int.zero_mul] at hiff
      exact decide_eq_decide.2 hiff
    rw [if_neg hne, hneg, Int.natAbs_mul, Int.natAbs_natCast]
    rw [show ofUnits (k < 0) (k.natAbs * Magnitude.one) 1 = ofFraction (k < 0) k.natAbs 1 from rfl,
      toRat?_ofFraction_whole _ h, signed_natAbs]

theorem toRat?_add {x y : Number} {a b : Int} (hx : x.toRat? = some (a : ℚ))
    (hy : y.toRat? = some (b : ℚ)) (h : (a + b).natAbs ≤ twoPow 53) :
    (x.add y).toRat? = some ((a + b : Int) : ℚ) := by
  obtain ⟨s, m, rfl, hm⟩ := exists_of_toRat?_eq_intCast hx
  obtain ⟨t, l, rfl, hl⟩ := exists_of_toRat?_eq_intCast hy
  rw [add, hm, hl, ← Int.add_mul]
  exact toRat?_ofSignedUnits h _

theorem toRat?_neg {x : Number} {a : Int} (hx : x.toRat? = some (a : ℚ)) :
    x.neg.toRat? = some ((-a : Int) : ℚ) := by
  obtain ⟨s, m, rfl, -⟩ := exists_of_toRat?_eq_intCast hx
  have hsign : signed (!s) m.units = -signed s m.units := by
    cases s <;> simp [signed]
  rw [neg, toRat?, hsign, Int.cast_neg, neg_div, Int.cast_neg]
  exact congrArg (fun q => some (-q)) (Option.some.inj hx)

theorem toRat?_sub_one {x : Number} {a : Int} (hx : x.toRat? = some (a : ℚ))
    (h : (a - 1).natAbs ≤ twoPow 53) : (x.sub one).toRat? = some ((a - 1 : Int) : ℚ) := by
  have hone : one.toRat? = some ((1 : Int) : ℚ) := toRat?_ofNat (by decide)
  rw [sub, Int.sub_eq_add_neg]
  exact toRat?_add hx (toRat?_neg hone) h

theorem toInt_of_toRat? {x : Number} {k : Int} (h : x.toRat? = some (k : ℚ)) : x.toInt = k := by
  obtain ⟨s, m, rfl, hm⟩ := exists_of_toRat?_eq_intCast h
  have habs : m.units = k.natAbs * Magnitude.one := by
    rw [← natAbs_signed s m.units, hm, Int.natAbs_mul, Int.natAbs_natCast]
  have hwhole : m.whole = k.natAbs := by
    rw [Magnitude.whole, habs, Nat.mul_div_cancel _ one_pos]
  rw [toInt, hwhole]
  have hone : (0 : Int) < Magnitude.one := Int.natCast_pos.2 one_pos
  have hsame : signed s k.natAbs * Magnitude.one = k * Magnitude.one := by
    rw [← signed_mul, ← habs, hm]
  exact Int.eq_of_mul_eq_mul_right (Int.ne_of_gt hone) hsame

/-- Rounding down a negative magnitude that is not whole makes it larger. -/
theorem floor_signed_div (s : Bool) (m : Magnitude) :
    ⌊(signed s m.units : ℚ) / (Magnitude.one : ℚ)⌋ =
      signed s (if s && !m.isWhole then m.whole + 1 else m.whole) := by
  rw [Rat.floor_intCast_div_natCast]
  cases s with
  | false => exact (Int.natCast_ediv _ _).symm
  | true =>
    have hsign : (Magnitude.one : Int).sign = 1 :=
      Int.sign_eq_one_of_pos (Int.natCast_pos.2 one_pos)
    have hdvd : (Magnitude.one : Int) ∣ m.units ↔ m.isWhole = true := by
      rw [Int.natCast_dvd_natCast, Nat.dvd_iff_mod_eq_zero, Magnitude.isWhole, beq_iff_eq]
    simp only [signed, if_true, Bool.true_and, Int.neg_ediv, hsign, hdvd, ← Int.natCast_ediv]
    rw [← Magnitude.whole]
    cases m.isWhole with
    | true => simp
    | false =>
      rw [if_neg Bool.false_ne_true, Bool.not_false, if_pos rfl]
      omega

theorem toRat?_floor {x : Number} {q : ℚ} (hx : x.toRat? = some q)
    (h : ⌊q⌋.natAbs ≤ twoPow 53) : x.floor.toRat? = some (⌊q⌋ : ℚ) := by
  cases x with
  | nan => cases hx
  | infinite s => cases hx
  | finite s m =>
    obtain rfl := Option.some.inj hx
    rw [floor_signed_div] at h ⊢
    rw [floor, toWhole]
    rw [natAbs_signed] at h
    exact toRat?_ofFraction_whole s h

end Number

end LineAsm
