import LineAsm.Operation
import LineAsm.Proofs.WholeNumbers

set_option autoImplicit false

/-!
# Parts of texts

The ends of a slice are computed in double precision: the index is cut at the point, added to the
length if it is negative, and brought inside the text. As long as the length is below `2 ^ 53`, the
result is that of exact arithmetic on integers for every finite index, however large: where the sum
is rounded, it is far below zero.
-/

namespace LineAsm

/-- The integer before the point of a rational. -/
def wholePart (q : ℚ) : Int := if q < 0 then ⌈q⌉ else ⌊q⌋

/-- The position that a whole index denotes in a text. -/
def Text.clamped (length : Nat) (k : Int) : Int :=
  if k < 0 then max 0 (length + k) else min k length

/-! ### Truncation -/

theorem Magnitude.whole_mul_one {m : Magnitude} (h : twoPow 53 ≤ m.whole) :
    m.whole * one = m.units := by
  have hunits : twoPow (53 + 1074) ≤ m.units := by
    rw [whole, one, Nat.le_div_iff_mul_le (twoPow_pos _), ← twoPow_add] at h
    exact h
  have hpos : m.units ≠ 0 := Nat.ne_of_gt (Nat.lt_of_lt_of_le (twoPow_pos _) hunits)
  have hlog : 53 + 1074 ≤ m.units.log2 := by
    rw [← Nat.not_lt, log2_lt_iff_lt_twoPow hpos]
    exact Nat.not_lt.2 hunits
  have hone : one ∣ spacing m.units := twoPow_dvd_twoPow (by omega)
  exact Nat.div_mul_cancel (hone.trans m.aligned)

namespace Number

theorem toRat?_whole (s : Bool) (m : Magnitude) :
    (ofFraction s m.whole 1).toRat? = some (signed s m.whole : ℚ) := by
  rcases Nat.le_total m.whole (twoPow 53) with hle | hge
  · exact toRat?_ofFraction_whole s hle
  · have hunits := Magnitude.whole_mul_one hge
    rw [ofFraction, hunits, ofUnits_units]
    exact toRat?_finite s hunits.symm

theorem wholePart_signed_div (s : Bool) (m : Magnitude) :
    wholePart ((signed s m.units : ℚ) / (Magnitude.one : ℚ)) = signed s m.whole := by
  have hone : (0 : ℚ) < Magnitude.one := Nat.cast_pos.2 one_pos
  have hfloor : ⌊((m.units : Int) : ℚ) / (Magnitude.one : ℚ)⌋ = m.whole :=
    floor_signed_div false m
  have hnonneg : (0 : ℚ) ≤ ((m.units : Int) : ℚ) / (Magnitude.one : ℚ) :=
    div_nonneg (Int.cast_nonneg (Int.natCast_nonneg _)) hone.le
  cases s with
  | false => exact (if_neg (not_lt.2 hnonneg)).trans hfloor
  | true =>
    have hneg : ((signed true m.units : Int) : ℚ) / (Magnitude.one : ℚ) =
        -(((m.units : Int) : ℚ) / (Magnitude.one : ℚ)) := by
      rw [signed, if_pos rfl, Int.cast_neg, neg_div]
    rw [hneg, wholePart]
    split
    · rw [Int.ceil_neg, hfloor]
      rfl
    · rename_i hzero
      have heq : ((m.units : Int) : ℚ) / (Magnitude.one : ℚ) = 0 := by
        rw [neg_lt_zero, not_lt] at hzero
        exact le_antisymm hzero hnonneg
      rw [heq, Int.floor_zero, eq_comm, Int.natCast_eq_zero] at hfloor
      rw [heq, neg_zero, Int.floor_zero, hfloor]
      rfl

theorem toRat?_trunc {x : Number} {q : ℚ} (hx : x.toRat? = some q) :
    x.trunc.toRat? = some (wholePart q : ℚ) := by
  cases x with
  | nan => cases hx
  | infinite s => cases hx
  | finite s m =>
    obtain rfl := Option.some.inj hx
    rw [wholePart_signed_div]
    exact toRat?_whole s m

/-! ### Order -/

theorem lt_iff {x y : Number} {a b : ℚ} (hx : x.toRat? = some a) (hy : y.toRat? = some b) :
    x.lt y = true ↔ a < b := by
  have hone : (0 : ℚ) < Magnitude.one := Nat.cast_pos.2 one_pos
  cases x with
  | nan => cases hx
  | infinite s => cases hx
  | finite s m =>
    cases y with
    | nan => cases hy
    | infinite t => cases hy
    | finite t l =>
      obtain rfl := Option.some.inj hx
      obtain rfl := Option.some.inj hy
      rw [div_lt_div_iff_of_pos_right hone, Int.cast_lt, lt, compare?, beq_iff_eq,
        Option.some_inj, compare_lt_iff_lt]

theorem toRat?_zero : zero.toRat? = some ((0 : Int) : ℚ) :=
  toRat?_finite false (n := 0) (Nat.zero_mul _).symm

theorem not_zero_lt_ofSignedUnits {u : Int} (h : u ≤ 0) (zeroNegative : Bool) :
    ¬ zero.lt (ofSignedUnits u zeroNegative) = true := by
  have hzero (s : Bool) (m : Magnitude) (hm : signed s m.units ≤ 0) :
      ¬ zero.lt (finite s m) = true := by
    rw [zero, lt, compare?, beq_iff_eq, Option.some_inj, compare_lt_iff_lt]
    exact not_lt.2 hm
  unfold ofSignedUnits
  split
  · apply hzero
    cases zeroNegative <;> exact le_rfl
  · rw [decide_eq_true (by omega : u < 0), ofUnits]
    split
    · apply hzero
      rw [signed, if_pos rfl]
      omega
    · decide

end Number

/-! ### Positions -/

theorem wholePart_intCast (k : Int) : wholePart (k : ℚ) = k := by
  rw [wholePart, Int.ceil_intCast, Int.floor_intCast, ite_self]

namespace Text

theorem clamped_nonneg (length : Nat) (k : Int) : 0 ≤ clamped length k := by
  unfold clamped
  split <;> omega

section

variable {length : Nat} (hlength : length < twoPow 53)
include hlength

/-- The sum is exact where it is positive; where it is rounded, it is negative. -/
theorem toInt_max_add_zero {x : Number} {k : Int} (hx : x.toRat? = some (k : ℚ)) (hk : k < 0) :
    (((Number.ofNat length).add x).max .zero).toInt = max 0 (length + k) := by
  have hsize := Number.toRat?_ofNat hlength.le
  rw [Number.max, show Number.zero.isNaN = false from rfl, if_neg Bool.false_ne_true]
  rcases lt_or_ge 0 (length + k) with hpos | hneg
  · have hsum := Number.toRat?_add hsize hx (by omega)
    rw [if_pos ((Number.lt_iff Number.toRat?_zero hsum).2 (Int.cast_lt.2 hpos)),
      Number.toInt_of_toRat? hsum, max_eq_right hpos.le]
  · obtain ⟨s, m, rfl, hm⟩ := Number.exists_of_toRat?_eq_intCast hx
    obtain ⟨t, l, hofNat, hl⟩ := Number.exists_of_toRat?_eq_intCast hsize
    have hsum : (length + k) * (Magnitude.one : Int) ≤ 0 :=
      Int.mul_nonpos_of_nonpos_of_nonneg hneg (Int.natCast_nonneg _)
    rw [hofNat, Number.add, hm, hl, ← Int.add_mul, if_neg (Number.not_zero_lt_ofSignedUnits hsum _),
      Number.toInt_of_toRat? Number.toRat?_zero, max_eq_left hneg]

theorem toInt_min {x : Number} {k : Int} (hx : x.toRat? = some (k : ℚ)) :
    (x.min (.ofNat length)).toInt = min k length := by
  have hsize := Number.toRat?_ofNat hlength.le
  have hnan : (Number.ofNat length).isNaN = false := by
    rw [Number.ofNat, Number.ofFraction_whole _ hlength.le]
    rfl
  rw [Number.min, hnan, if_neg Bool.false_ne_true]
  rcases lt_or_ge k length with hlt | hge
  · rw [if_pos ((Number.lt_iff hx hsize).2 (Int.cast_lt.2 hlt)), Number.toInt_of_toRat? hx,
      min_eq_left hlt.le]
  · rw [if_neg (fun h => not_lt.2 hge (Int.cast_lt.1 ((Number.lt_iff hx hsize).1 h))),
      Number.toInt_of_toRat? hsize, min_eq_right hge]

theorem position_eq {index : Number} {q : ℚ} (hindex : index.toRat? = some q) :
    (position length index : Int) = clamped length (wholePart q) := by
  have hwhole := Number.toRat?_trunc hindex
  have hlt := Number.lt_iff hwhole Number.toRat?_zero
  rw [Int.cast_lt] at hlt
  have hnonneg := clamped_nonneg length (wholePart q)
  unfold position clamped at *
  dsimp only
  by_cases hk : wholePart q < 0
  · rw [if_pos hk] at hnonneg ⊢
    rw [if_pos (hlt.2 hk), toInt_max_add_zero hlength hwhole hk, Int.toNat_of_nonneg hnonneg]
  · rw [if_neg hk] at hnonneg ⊢
    rw [if_neg (fun h => hk (hlt.1 h)), toInt_min hlength hwhole, Int.toNat_of_nonneg hnonneg]

theorem position_zero : position length .zero = 0 := by
  have h := position_eq hlength Number.toRat?_zero
  rw [wholePart_intCast, clamped, if_neg (lt_irrefl 0)] at h
  omega

theorem position_length : position length (.ofNat length) = length := by
  have h := position_eq hlength (Number.toRat?_ofNat hlength.le)
  rw [wholePart_intCast, clamped, if_neg (by omega), min_self] at h
  omega

end

/-! ### The characters of a slice -/

/-- The elements at the positions from `a` up to `b`, where the first position is `n`. -/
theorem map_fst_filter_zipIdx {α : Type} (xs : List α) (n a b : Nat) :
    ((xs.zipIdx n).filter fun x => a ≤ x.2 ∧ x.2 < b).map Prod.fst =
      (xs.drop (a - n)).take (b - max a n) := by
  induction xs generalizing n with
  | nil => simp
  | cons x xs ih =>
    rw [List.zipIdx_cons, List.filter_cons]
    rcases Nat.lt_or_ge n a with hbefore | hfrom
    · rw [if_neg (by simp; omega), ih]
      obtain ⟨d, hd⟩ : ∃ d, a - n = d + 1 := ⟨a - n - 1, by omega⟩
      rw [hd, List.drop_succ_cons, show a - (n + 1) = d by omega,
        show max a (n + 1) = max a n by omega]
    · rw [show a - n = 0 by omega, List.drop_zero, show max a n = n by omega]
      rcases Nat.lt_or_ge n b with hinside | hpast
      · obtain ⟨d, hd⟩ : ∃ d, b - n = d + 1 := ⟨b - n - 1, by omega⟩
        rw [if_pos (by simp; omega), List.map_cons, ih, hd, List.take_succ_cons,
          show a - (n + 1) = 0 by omega, List.drop_zero, show b - max a (n + 1) = d by omega]
      · rw [if_neg (by simp; omega), ih, show b - n = 0 by omega, List.take_zero,
          show b - max a (n + 1) = 0 by omega, List.take_zero]

theorem toList_slice (s : String) (start stop : Number) :
    (slice s start stop).toList =
      (s.toList.drop (position s.length start)).take
        (position s.length stop - position s.length start) := by
  rw [slice, String.toList_ofList, String.length_toList]

theorem slice_append_slice {s : String} (hs : s.length < twoPow 53) (k : Number) :
    slice s .zero k ++ slice s k (length s) = s := by
  apply String.toList_inj.1
  have hrest : (s.toList.drop (position s.length k)).length ≤ s.length - position s.length k := by
    rw [List.length_drop, String.length_toList]
  rw [String.toList_append, toList_slice, toList_slice, length, position_zero hs,
    position_length hs, List.drop_zero, Nat.sub_zero, List.take_of_length_le hrest,
    List.take_append_drop]

theorem slice_whole {s : String} (hs : s.length < twoPow 53) : slice s .zero (length s) = s := by
  apply String.toList_inj.1
  rw [toList_slice, length, position_zero hs, position_length hs, List.drop_zero, Nat.sub_zero,
    List.take_of_length_le (Nat.le_of_eq String.length_toList)]

theorem slice_infix (s : String) (start stop : Number) :
    (slice s start stop).toList <:+: s.toList := by
  rw [toList_slice]
  exact (List.take_prefix _ _).isInfix.trans (List.drop_suffix _ _).isInfix

end Text

/-- A slice holds the characters of a text between two positions of exact arithmetic, so two slices
that meet at any index give the text. -/
theorem slice_is_clamped_substring {s : String} (hs : s.length < twoPow 53) :
    (∀ (start stop : Number) (a b : ℚ), start.toRat? = some a → stop.toRat? = some b →
      (Text.slice s start stop).toList =
        (s.toList.zipIdx.filter fun x =>
          Text.clamped s.length (wholePart a) ≤ x.2 ∧
            x.2 < Text.clamped s.length (wholePart b)).map Prod.fst ∧
      (Text.clamped s.length (wholePart b) ≤ Text.clamped s.length (wholePart a) →
        Text.slice s start stop = "")) ∧
    (∀ k : Number, Text.slice s .zero k ++ Text.slice s k (Text.length s) = s) ∧
    Text.slice s .zero (Text.length s) = s ∧
    ∀ start stop : Number, (Text.slice s start stop).toList <:+: s.toList ∧
      (Text.slice s start stop).length ≤ s.length := by
  refine ⟨fun start stop a b ha hb => ?_, Text.slice_append_slice hs, Text.slice_whole hs,
    fun start stop => ?_⟩
  · rw [← Text.position_eq hs ha, ← Text.position_eq hs hb]
    constructor
    · have hpositions := Text.map_fst_filter_zipIdx s.toList 0
        (Text.position s.length start) (Text.position s.length stop)
      rw [Nat.sub_zero, Nat.max_zero, ← Text.toList_slice] at hpositions
      rw [← hpositions]
      simp only [Nat.cast_le, Nat.cast_lt]
    · intro hcrossed
      apply String.toList_inj.1
      rw [Text.toList_slice, Nat.sub_eq_zero_of_le (Int.ofNat_le.1 hcrossed), List.take_zero]
      rfl
  · have hpart := Text.slice_infix s start stop
    refine ⟨hpart, ?_⟩
    rw [← String.length_toList, ← String.length_toList]
    exact hpart.length_le

theorem slice_is_clamped_substring_accented :
    "héllo".length < twoPow 53 ∧
    (Number.ofFraction true 9 2).toRat? = some (-9 / 2) ∧
    (Number.ofFraction true 1 2).toRat? = some (-1 / 2) ∧
    (Number.ofNat (twoPow 60)).toRat? = some 1152921504606846976 ∧
    (Text.slice "héllo" (.ofFraction true 9 2) (.ofNat (twoPow 60))).toList = ['é', 'l', 'l', 'o'] ∧
    Text.slice "héllo" (.ofFraction true 9 2) (.ofFraction true 1 2) = "" ∧
    Text.slice "héllo" .zero (.ofFraction true 9 2) ++
      Text.slice "héllo" (.ofFraction true 9 2) (Text.length "héllo") = "héllo" := by
  have hs : "héllo".length < twoPow 53 := by decide +kernel
  have hstart : (Number.ofFraction true 9 2).toRat? = some (-9 / 2) := by decide +kernel
  have hnear : (Number.ofFraction true 1 2).toRat? = some (-1 / 2) := by decide +kernel
  have hfar : (Number.ofNat (twoPow 60)).toRat? = some 1152921504606846976 := by decide +kernel
  obtain ⟨hslice, hmeet, -⟩ := slice_is_clamped_substring hs
  refine ⟨hs, hstart, hnear, hfar, ?_, ?_, hmeet _⟩
  · exact (hslice _ _ _ _ hstart hfar).1.trans (by decide +kernel)
  · exact (hslice _ _ _ _ hstart hnear).2 (by decide +kernel)

end LineAsm
