import LineAsm.Number.Printer
import LineAsm.Proofs.Numerals

set_option autoImplicit false

/-!
# Decimals that read back

The places of a decimal, written out, are a numeral with nothing before it and no exponent, and the
numeral writes the decimal itself, or the decimal with a positive exponent multiplied out. The
shortest decimal of a magnitude denotes that magnitude: the search accepts a candidate only if it
reads back, and the exact expansion, which is left if there is none, is rounded by no bit.
-/

namespace LineAsm

/-! ### Rows of digits -/

theorem ofDigits_replicate_append (n : Nat) (ds : List Char) :
    ofDigits (List.replicate n '0' ++ ds) = ofDigits ds := by
  have hzeros : (List.replicate n '0').foldl (fun n c => 10 * n + digitValue c) 0 = 0 := by
    induction n with
    | zero => rfl
    | succ n ih => exact ih
  rw [ofDigits_eq_foldl, List.foldl_append, hzeros, ofDigits_eq_foldl]

namespace Decimal

theorem ofDigits_figures (n : Nat) : ofDigits (figures n) = n := by
  rw [ofDigits_eq_foldl]
  exact Nat.ofDigitChars_toDigits (by decide) (by decide)

theorem all_isDigit_figures (n : Nat) : (figures n).all Char.isDigit = true :=
  List.all_eq_true.2 fun _ hc => Nat.isDigit_of_mem_toDigits (by decide) (by decide) hc

theorem figures_ne_nil (n : Nat) : figures n ≠ [] := Nat.toDigits_ne_nil

/-! ### Places written out -/

/-- The same rational with an exponent that is not positive. -/
def multipliedOut (d : Decimal) : Decimal :=
  match d.exponent with
  | .ofNat e => ⟨d.digits * tenPow e, 0⟩
  | .negSucc k => ⟨d.digits, .negSucc k⟩

/-- Digits, or digits on both sides of a point, that write the decimal. -/
inductive Places : List Char → Decimal → Prop where
  | whole {ds : List Char} (hne : ds ≠ []) (hds : ds.all Char.isDigit = true) :
      Places ds ⟨ofDigits ds, 0⟩
  | point {ints fraction : List Char} (hi : ints ≠ []) (hints : ints.all Char.isDigit = true)
      (hf : fraction ≠ []) (hfraction : fraction.all Char.isDigit = true) :
      Places (ints ++ '.' :: fraction) ⟨ofDigits (ints ++ fraction), -fraction.length⟩

theorem Places.writes {t : List Char} {d : Decimal} (h : Places t d) : Writes t d := by
  cases h with
  | whole hne hds =>
    have hwrites := Writes.intro hds .absent (.inl hne) .absent
    simpa only [List.append_nil, List.length_nil, Int.natCast_zero, Int.sub_zero] using hwrites
  | point hi hints hf hfraction =>
    have hwrites := Writes.intro hints (.point hfraction) (.inl hi) .absent
    simpa only [List.append_nil, Int.zero_sub] using hwrites

theorem places_positional (d : Decimal) : Places d.positional d.multipliedOut := by
  obtain ⟨digits, exponent⟩ := d
  cases exponent with
  | ofNat e =>
    have hplaces := Places.whole (figures_ne_nil (digits * tenPow e)) (all_isDigit_figures _)
    rwa [ofDigits_figures] at hplaces
  | negSucc k =>
    simp only [positional, multipliedOut]
    generalize hpadded : List.replicate (k + 2 - (figures digits).length) '0' ++ figures digits =
      padded
    have hlength : k + 2 ≤ padded.length := by
      rw [← hpadded, List.length_append, List.length_replicate]
      omega
    have hdigits : padded.all Char.isDigit = true := by
      rw [← hpadded, List.all_append, all_isDigit_figures, Bool.and_true]
      exact List.all_eq_true.2 fun c hc => List.eq_of_mem_replicate hc ▸ rfl
    have hvalue : ofDigits padded = digits := by
      rw [← hpadded, ofDigits_replicate_append, ofDigits_figures]
    -- as many digits go behind the point as the exponent asks for, and at least one stays before
    generalize hcut : padded.length - (k + 1) = cut
    have htake : (padded.take cut).length = cut := by
      rw [List.length_take]
      omega
    have hdrop : (padded.drop cut).length = k + 1 := by
      rw [List.length_drop]
      omega
    rw [← List.take_append_drop cut padded, List.all_append, Bool.and_eq_true] at hdigits
    have hplaces := Places.point (List.ne_nil_of_length_pos (by omega)) hdigits.1
      (List.ne_nil_of_length_pos (by omega)) hdigits.2
    rwa [List.take_append_drop, hvalue, hdrop] at hplaces

/-! ### The number of a decimal -/

theorem toNumber_multipliedOut {d : Decimal} {negative : Bool}
    (h : (d.toNumber negative).isFinite = true) :
    d.multipliedOut.toNumber negative = d.toNumber negative := by
  obtain ⟨digits, exponent⟩ := d
  cases exponent with
  | negSucc k => rfl
  | ofNat e =>
    by_cases hz : digits = 0
    · simp only [toNumber, multipliedOut, hz, Nat.zero_mul, if_true]
    · have hne : digits * tenPow e ≠ 0 := Nat.mul_ne_zero hz (Nat.ne_of_gt (tenPow_pos e))
      by_cases he : 342 ≤ e
      · simp only [toNumber, if_neg hz, if_pos he] at h
        cases h
      · have hzero : (0 : Int) = .ofNat 0 := rfl
        have hone : digits * tenPow e * tenPow 0 = digits * tenPow e := Nat.mul_one _
        have hsmall : ¬ 342 ≤ 0 := by decide
        simp only [toNumber, multipliedOut, if_neg hz, if_neg hne, if_neg he, hzero, if_neg hsmall,
          hone]

end Decimal

theorem Number.ofUnits_sign {num den : Nat} {m : Magnitude}
    (h : ofUnits false num den = .finite false m) (negative : Bool) :
    ofUnits negative num den = .finite negative m := by
  unfold ofUnits at h ⊢
  dsimp only at h ⊢
  split at h
  · rename_i hlt
    rw [dif_pos hlt]
    exact congrArg (Number.finite negative) (Number.finite.inj h).2
  · cases h

namespace Decimal

theorem toNumber_sign {d : Decimal} {m : Magnitude} (h : d.toNumber false = .finite false m)
    (negative : Bool) : d.toNumber negative = .finite negative m := by
  unfold toNumber at h ⊢
  by_cases hz : d.digits = 0
  · rw [if_pos hz] at h ⊢
    exact congrArg (Number.finite negative) (Number.finite.inj h).2
  rw [if_neg hz] at h ⊢
  cases he : d.exponent with
  | ofNat e =>
    rw [he] at h
    dsimp only at h ⊢
    by_cases hlarge : 342 ≤ e
    · rw [if_pos hlarge] at h
      cases h
    · rw [if_neg hlarge] at h ⊢
      exact Number.ofUnits_sign h negative
  | negSucc k =>
    rw [he] at h
    dsimp only at h ⊢
    by_cases hsmall : d.digits.log2 + 1076 ≤ 3 * (k + 1)
    · rw [if_pos hsmall] at h ⊢
      exact congrArg (Number.finite negative) (Number.finite.inj h).2
    · rw [if_neg hsmall] at h ⊢
      exact Number.ofUnits_sign h negative

end Decimal

/-! ### The exact expansion -/

/-- Rounding depends on the ratio alone. -/
theorem nearest_mul_self (n : Nat) {d : Nat} (hd : 0 < d) : nearest (n * d) d = nearest n 1 := by
  unfold nearest
  dsimp only
  rw [Nat.mul_div_cancel n hd, Nat.div_one, Nat.one_mul]
  generalize spacing n = gap
  have hlow : n * d / (d * gap) = n / gap := by
    rw [Nat.mul_comm d gap, Nat.mul_div_mul_right n gap hd]
  have hrest : 2 * (n * d % (d * gap)) = d * (2 * (n % gap)) := by
    rw [Nat.mul_comm d gap, Nat.mul_mod_mul_right, ← Nat.mul_assoc, Nat.mul_comm]
  simp only [hlow, hrest, Nat.mul_lt_mul_left hd, Nat.mul_right_inj (Nat.ne_of_gt hd)]

namespace Magnitude

-- the two facts hold for any power, and the power itself is too large to be computed
theorem tenths_mul_one (m : Magnitude) : m.tenths * one = m.units * tenPow 1074 := by
  unfold tenths one
  generalize 1074 = k
  have hten : tenPow k = Nat.pow 5 k * twoPow k := Nat.mul_pow 5 2 k
  rw [hten, Nat.mul_assoc]

theorem le_log2_tenths {m : Magnitude} (h : m.units ≠ 0) : 2 * 1074 ≤ m.tenths.log2 := by
  unfold tenths
  generalize 1074 = k
  have hfive : 0 < Nat.pow 5 k := Nat.pow_pos (by decide)
  rw [Nat.le_log2 (Nat.mul_ne_zero h (Nat.ne_of_gt hfive)), Nat.pow_mul]
  calc (2 ^ 2) ^ k
      ≤ Nat.pow 5 k := Nat.pow_le_pow_left (by decide) k
    _ ≤ m.units * Nat.pow 5 k := Nat.le_mul_of_pos_left _ (Nat.pos_of_ne_zero h)

theorem toNumber_expansion {m : Magnitude} (h : m.units ≠ 0) :
    m.expansion.toNumber false = .finite false m := by
  have hlog := le_log2_tenths h
  have hne : m.tenths ≠ 0 := by
    intro hz
    rw [hz, Nat.log2_zero] at hlog
    omega
  have hsize : ¬ m.tenths.log2 + 1076 ≤ 3 * (1073 + 1) := by omega
  have hexpansion : m.expansion = ⟨m.tenths, .negSucc 1073⟩ := rfl
  simp only [hexpansion, Decimal.toNumber, if_neg hne, if_neg hsize, Number.ofFraction,
    tenths_mul_one]
  rw [← Number.ofUnits_units false m]
  simp only [Number.ofUnits, nearest_mul_self m.units (tenPow_pos 1074)]

/-! ### The shortest decimal -/

theorem readsBack_of_atDigits? {m : Magnitude} {tenths width count : Nat} {d : Decimal}
    (h : m.atDigits? tenths width count = some d) : m.readsBack d = true := by
  unfold atDigits? at h
  dsimp only at h
  split at h
  · rename_i hlow hhigh
    obtain rfl := Option.some.inj h
    split
    · exact hlow
    · exact hhigh
  · rename_i hlow hhigh
    exact Option.some.inj h ▸ hlow
  · rename_i hlow hhigh
    exact Option.some.inj h ▸ hhigh
  · cases h

theorem toNumber_shortest {m : Magnitude} (h : m.units ≠ 0) (negative : Bool) :
    m.shortest.toNumber negative = .finite negative m := by
  refine Decimal.toNumber_sign ?_ negative
  unfold shortest
  dsimp only
  cases hfound : (List.range' 1 17).findSome? (m.atDigits? m.tenths (Decimal.width m.tenths)) with
  | none => exact toNumber_expansion h
  | some d =>
    obtain ⟨count, -, hcount⟩ := List.exists_of_findSome?_eq_some hfound
    exact eq_of_beq (readsBack_of_atDigits? hcount)

/-- The places of the shortest decimal, after a sign, denote the magnitude with that sign. -/
theorem places_shortest {m : Magnitude} (h : m.units ≠ 0) :
    ∃ d, Decimal.Places m.shortest.positional d ∧
      ∀ negative, d.toNumber negative = .finite negative m := by
  refine ⟨_, m.shortest.places_positional, ?_⟩
  intro negative
  have hread := toNumber_shortest h negative
  rw [Decimal.toNumber_multipliedOut (by rw [hread]; rfl), hread]

end Magnitude

end LineAsm
