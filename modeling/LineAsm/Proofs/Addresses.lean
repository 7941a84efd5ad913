import LineAsm.Proofs.NumberReaders
import LineAsm.Proofs.Padding
import LineAsm.Proofs.ShortestDecimals
import LineAsm.Proofs.WholeNumbers

set_option autoImplicit false

/-!
# Addresses

A number denotes the natural that it stands for, and a text the natural that its digits write, with
blanks around them and perhaps a plus in front. As long as a number is below `2 ^ 64`, the address
of a value is the natural it denotes, and a value that denotes none below `2 ^ 64` has no address.
From `2 ^ 64` on numbers and texts part: a text is refused, and a number gives the last address.

A number and its own text have the same address where the text shows the number in full. This is so
below `2 ^ 53`: the shortest decimal of a whole number has no places behind the point, and no other
whole number reads back as the same double.
-/

namespace LineAsm

/-! ### Naturals that values denote -/

/-- The text is a row of digits, perhaps after a plus, that writes the natural. -/
inductive WritesNat : List Char → Nat → Prop where
  | intro {plus ds : List Char} (hplus : plus = [] ∨ plus = ['+']) (hne : ds ≠ [])
      (hds : ds.all Char.isDigit = true) : WritesNat (plus ++ ds) (Nat.ofDigitChars 10 ds 0)

namespace Value

inductive Denotes : Value → Nat → Prop where
  | number {n : Number} {a : Nat} (h : n.toRat? = some (a : ℚ)) : Denotes (.number n) a
  | text {s : String} {before t after : List Char} {a : Nat}
      (hbefore : before.all Text.isBlank = true) (ht : WritesNat t a)
      (hafter : after.all Text.isBlank = true) (hs : s.toList = before ++ (t ++ after)) :
      Denotes (.text s) a

/-- The value is not a number from `2 ^ 64` on. -/
def BelowLimit : Value → Prop
  | .number n => ∀ q : ℚ, n.toRat? = some q → q < 2 ^ 64
  | .text _ => True

/-- The address of the value is the natural below `2 ^ 64` that it denotes, and if it denotes none,
its text is reported. -/
structure AddressExact (v : Value) : Prop where
  ok : ∀ a, v.toAddress = .ok a ↔ v.Denotes a ∧ a < 2 ^ 64
  error : ∀ f, v.toAddress = .error f ↔
    (∀ a, v.Denotes a → 2 ^ 64 ≤ a) ∧ f = .integerExpected v.display

end Value

/-! ### Texts -/

theorem ofDigits_eq_ofDigitChars (ds : List Char) : ofDigits ds = Nat.ofDigitChars 10 ds 0 :=
  ofDigits_eq_foldl ds

namespace WritesNat

variable {t : List Char} {a : Nat}

theorem ne_nil (h : WritesNat t a) : t ≠ [] := by
  cases h with
  | intro hplus hne hds => exact List.append_ne_nil_of_right_ne_nil _ hne

theorem isBlank_of_mem (h : WritesNat t a) {c : Char} (hc : c ∈ t) : Text.isBlank c = false := by
  cases h with
  | intro hplus hne hds =>
    rcases List.mem_append.1 hc with hsign | hdigit
    · rcases hplus with rfl | rfl
      · cases hsign
      · rw [List.mem_singleton.1 hsign]
        rfl
    · have hd := List.all_eq_true.1 hds c hdigit
      exact Munch.isBlank_of_isAlphanum (by rw [Char.isAlphanum, hd, Bool.or_true])

theorem eq_ofDigitChars (h : WritesNat t a) :
    a = Nat.ofDigitChars 10 (t.filter Char.isDigit) 0 := by
  cases h with
  | @intro plus ds hplus hne hds =>
    have hsign : plus.filter Char.isDigit = [] := by
      rcases hplus with rfl | rfl <;> rfl
    rw [List.filter_append, hsign, List.nil_append, List.filter_eq_self.2 (List.all_eq_true.1 hds)]

end WritesNat

theorem wordOfText?_append {plus ds : List Char}
    (h : (plus = [] ∧ ds.head? ≠ some '+') ∨ plus = ['+']) :
    wordOfText? (plus ++ ds) =
      if ds ≠ [] ∧ ds.all Char.isDigit = true ∧ Nat.ofDigitChars 10 ds 0 < wordLimit then
        some (Nat.ofDigitChars 10 ds 0)
      else none := by
  have hcond : (!ds.isEmpty && ds.all Char.isDigit && decide (ofDigits ds < wordLimit)) = true ↔
      ds ≠ [] ∧ ds.all Char.isDigit = true ∧ ofDigits ds < wordLimit := by
    rw [Bool.and_eq_true, Bool.and_eq_true, Bool.not_eq_true', List.isEmpty_eq_false_iff,
      decide_eq_true_eq, and_assoc]
  rw [← ofDigits_eq_ofDigitChars]
  unfold wordOfText?
  rcases h with ⟨rfl, hhead⟩ | rfl
  · rw [List.nil_append]
    split
    · exact absurd rfl hhead
    · simp only [hcond]
  · simp only [List.singleton_append, hcond]

theorem wordOfText?_eq_some_iff {t : List Char} {a : Nat} :
    wordOfText? t = some a ↔ WritesNat t a ∧ a < wordLimit := by
  constructor
  · intro h
    obtain ⟨plus, ds, hplus, rfl⟩ : ∃ plus ds : List Char,
        ((plus = [] ∧ ds.head? ≠ some '+') ∨ plus = ['+']) ∧ t = plus ++ ds := by
      by_cases hhead : t.head? = some '+'
      · obtain ⟨ds, rfl⟩ := List.head?_eq_some_iff.1 hhead
        exact ⟨['+'], ds, .inr rfl, rfl⟩
      · exact ⟨[], t, .inl ⟨rfl, hhead⟩, rfl⟩
    rw [wordOfText?_append hplus] at h
    split at h
    · rename_i hcond
      obtain ⟨hne, hds, ha⟩ := hcond
      obtain rfl := Option.some.inj h
      exact ⟨.intro (hplus.imp_left And.left) hne hds, ha⟩
    · cases h
  · rintro ⟨hwrites, ha⟩
    cases hwrites with
    | @intro plus ds hplus hne hds =>
      have hhead : ds.head? ≠ some '+' := by
        intro hhead
        cases List.all_eq_true.1 hds '+' (List.mem_of_head? hhead)
      rw [wordOfText?_append (hplus.imp_left fun h => ⟨h, hhead⟩), if_pos ⟨hne, hds, ha⟩]

theorem Text.trim_append {before t after : List Char} (hbefore : before.all isBlank = true)
    (hafter : after.all isBlank = true) (hne : t ≠ []) (ht : ∀ c ∈ t, isBlank c = false) :
    trim (before ++ (t ++ after)) = t := by
  have hstart : trimStart (before ++ (t ++ after)) = t ++ after := by
    obtain ⟨c, cs, rfl⟩ := List.exists_cons_of_ne_nil hne
    have hstop : StopsAt isBlank (c :: cs ++ after) := ht c List.mem_cons_self
    exact (span_of_stopsAt hbefore hstop).2
  have hend : t.reverse.dropWhile isBlank = t.reverse := by
    refine List.dropWhile_eq_self_iff.2 fun hl => ?_
    rw [ht _ (List.mem_reverse.1 (List.getElem_mem hl))]
    exact Bool.false_ne_true
  rw [trim, hstart, trimEnd_append_blanks hafter, trimEnd, hend, List.reverse_reverse]

theorem WritesNat.trim_eq {before t after : List Char} {a : Nat} (h : WritesNat t a)
    (hbefore : before.all Text.isBlank = true) (hafter : after.all Text.isBlank = true) :
    Text.trim (before ++ (t ++ after)) = t :=
  Text.trim_append hbefore hafter h.ne_nil fun _ hc => h.isBlank_of_mem hc

theorem Value.Denotes.unique {v : Value} {a b : Nat} (ha : v.Denotes a) (hb : v.Denotes b) :
    a = b := by
  cases ha with
  | number hn =>
    cases hb with
    | number hn' => exact Nat.cast_injective (Option.some.inj (hn.symm.trans hn'))
  | text hbefore ht hafter hs =>
    cases hb with
    | text hbefore' ht' hafter' hs' =>
      have htrim := congrArg Text.trim (hs.symm.trans hs')
      rw [ht.trim_eq hbefore hafter, ht'.trim_eq hbefore' hafter'] at htrim
      rw [ht.eq_ofDigitChars, ht'.eq_ofDigitChars, htrim]

/-! ### The word of a value -/

namespace Number

theorem toRat?_eq_natCast_iff {s : Bool} {m : Magnitude} {a : Nat} :
    (finite s m).toRat? = some (a : ℚ) ↔ m.units = a * Magnitude.one ∧ (s = false ∨ a = 0) := by
  constructor
  · intro h
    rw [← Int.cast_natCast] at h
    obtain ⟨s', m', heq, hunits⟩ := exists_of_toRat?_eq_intCast h
    obtain ⟨rfl, rfl⟩ := Number.finite.inj heq
    have hpos := one_pos
    have habs : m.units = a * Magnitude.one := by
      rw [← natAbs_signed s m.units, hunits, Int.natAbs_mul, Int.natAbs_natCast,
        Int.natAbs_natCast]
    refine ⟨habs, ?_⟩
    cases s with
    | false => exact .inl rfl
    | true =>
      rw [signed, if_pos rfl, habs] at hunits
      have hzero : a * Magnitude.one = 0 := by
        push_cast at hunits
        omega
      exact .inr ((Nat.mul_eq_zero.1 hzero).resolve_right (Nat.ne_of_gt hpos))
  · rintro ⟨hunits, rfl | rfl⟩
    · rw [toRat?_finite false hunits, signed, if_neg Bool.false_ne_true, Int.cast_natCast]
    · rw [toRat?_finite s hunits]
      cases s <;> rfl

end Number

namespace Value

theorem address?_number {n : Number} {b : Nat} :
    (number n).address? = some b ↔ ∃ a, (number n).Denotes a ∧ b = min a (wordLimit - 1) := by
  constructor
  · intro h
    cases n with
    | nan => cases h
    | infinite s => cases h
    | finite s m =>
      simp only [address?] at h
      split at h
      · rename_i hcond
        obtain rfl := Option.some.inj h
        rw [Bool.and_eq_true, Bool.or_eq_true, Bool.not_eq_true', Magnitude.isWhole, beq_iff_eq,
          beq_iff_eq] at hcond
        refine ⟨m.whole, .number (Number.toRat?_eq_natCast_iff.2 ⟨?_, hcond.2.imp_right ?_⟩), rfl⟩
        · exact (Nat.div_mul_cancel (Nat.dvd_of_mod_eq_zero hcond.1)).symm
        · intro hzero
          rw [Magnitude.whole, hzero, Nat.zero_div]
      · cases h
  · rintro ⟨a, hdenotes, rfl⟩
    cases hdenotes with
    | number hn =>
      cases n with
      | nan => cases hn
      | infinite s => cases hn
      | finite s m =>
        obtain ⟨hunits, hsign⟩ := Number.toRat?_eq_natCast_iff.1 hn
        have hwhole : m.whole = a := by
          rw [Magnitude.whole, hunits, Nat.mul_div_cancel _ Number.one_pos]
        have hcond : (m.isWhole && (!s || m.units == 0)) = true := by
          rw [Bool.and_eq_true, Bool.or_eq_true, Bool.not_eq_true', Magnitude.isWhole, beq_iff_eq,
            beq_iff_eq, hunits]
          refine ⟨Nat.mul_mod_left _ _, hsign.imp_right ?_⟩
          rintro rfl
          exact Nat.zero_mul _
        rw [address?, if_pos hcond, hwhole]

theorem address?_text {s : String} {a : Nat} :
    (text s).address? = some a ↔ (text s).Denotes a ∧ a < wordLimit := by
  rw [address?, wordOfText?_eq_some_iff]
  constructor
  · rintro ⟨hwrites, ha⟩
    obtain ⟨before, after, hbefore, hafter, hs⟩ := Text.exists_trim s.toList
    exact ⟨.text hbefore hwrites hafter hs, ha⟩
  · rintro ⟨hdenotes, ha⟩
    cases hdenotes with
    | text hbefore ht hafter hs =>
      rw [hs, ht.trim_eq hbefore hafter]
      exact ⟨ht, ha⟩

theorem address?_of_belowLimit {v : Value} (h : v.BelowLimit) {a : Nat} :
    v.address? = some a ↔ v.Denotes a ∧ a < wordLimit := by
  cases v with
  | text s => exact address?_text
  | number n =>
    have hlimit : ∀ {k : Nat}, (number n).Denotes k → k < wordLimit := by
      intro k hk
      cases hk with
      | number hn =>
        have hlt := h _ hn
        exact_mod_cast hlt
    rw [address?_number]
    constructor
    · rintro ⟨k, hk, rfl⟩
      have hlt := hlimit hk
      rw [Nat.min_eq_left (Nat.le_sub_one_of_lt hlt)]
      exact ⟨hk, hlt⟩
    · rintro ⟨ha, hlt⟩
      exact ⟨a, ha, (Nat.min_eq_left (Nat.le_sub_one_of_lt hlt)).symm⟩

theorem toAddress_eq_ok_iff {v : Value} {a : Nat} : v.toAddress = .ok a ↔ v.address? = some a := by
  unfold toAddress
  cases v.address? <;> simp

theorem toAddress_eq_error_iff {v : Value} {f : Fault} :
    v.toAddress = .error f ↔ v.address? = none ∧ f = .integerExpected v.display := by
  unfold toAddress
  cases v.address? <;> simp [eq_comm]

end Value

/-! ### How whole numbers are shown -/

theorem le_log2_iff_twoPow_le {n k : Nat} (h : n ≠ 0) : k ≤ n.log2 ↔ twoPow k ≤ n := Nat.le_log2 h

theorem twoPow_le_nearest {k n : Nat} (h : twoPow k ≤ n) : twoPow k ≤ nearest n 1 := by
  have hn : n ≠ 0 := Nat.ne_of_gt (Nat.lt_of_lt_of_le (twoPow_pos k) h)
  have hk : k ≤ n.log2 := (le_log2_iff_twoPow_le hn).2 h
  -- the leading bit is a multiple of the spacing, and so below the multiple that is taken
  obtain ⟨q, hq⟩ : spacing n ∣ twoPow n.log2 := twoPow_dvd_twoPow (Nat.sub_le _ _)
  have hlow : q ≤ n / spacing n := by
    rw [Nat.le_div_iff_mul_le (spacing_pos n), Nat.mul_comm, ← hq]
    exact Nat.log2_self_le hn
  calc twoPow k
      ≤ twoPow n.log2 := Nat.pow_le_pow_right (by decide) hk
    _ = q * spacing n := by rw [hq, Nat.mul_comm]
    _ ≤ n / spacing n * spacing n := Nat.mul_le_mul_right _ hlow
    _ ≤ nearest n 1 := by
      unfold nearest
      simp only [Nat.div_one, Nat.one_mul]
      split
      · exact Nat.le_refl _
      · exact Nat.mul_le_mul_right _ (Nat.le_succ _)

namespace Decimal

theorem lt_width {n e : Nat} (h : tenPow e ≤ n) (he : e ≤ n.log2 * 30103 / 100000 + 1) :
    e < width n := by
  unfold width
  dsimp only
  split
  · omega
  · rename_i hfirst
    have hne : e ≠ n.log2 * 30103 / 100000 + 1 := by
      rintro rfl
      exact hfirst h
    split
    · omega
    · rename_i hsecond
      have hne : e ≠ n.log2 * 30103 / 100000 := by
        rintro rfl
        exact hsecond h
      omega

theorem width_le (n : Nat) : width n ≤ n.log2 * 30103 / 100000 + 2 := by
  unfold width
  dsimp only
  split
  · omega
  · split <;> omega

end Decimal

theorem exists_of_findSome?_range' {α : Type} {f : Nat → Option α} {s n k : Nat}
    (hk : k ∈ List.range' s n) (h : (f k).isSome = true) :
    ∃ c d, c ≤ k ∧ f c = some d ∧ (List.range' s n).findSome? f = some d := by
  obtain ⟨d, hd⟩ := Option.isSome_iff_exists.1 (List.findSome?_isSome_iff.2 ⟨k, hk, h⟩)
  obtain ⟨front, c, back, hrange, hc, hfront⟩ := List.findSome?_eq_some_iff.1 hd
  refine ⟨c, d, ?_, hc, hd⟩
  have hsorted : (front ++ c :: back).Pairwise (· < ·) := hrange ▸ List.pairwise_lt_range' 1
  rw [hrange, List.mem_append, List.mem_cons] at hk
  rcases hk with hk | rfl | hk
  · rw [hfront k hk] at h
    cases h
  · exact Nat.le_refl _
  · have hback := (List.pairwise_append.1 hsorted).2.1
    exact Nat.le_of_lt (List.rel_of_pairwise_cons hback hk)

namespace Magnitude

theorem units_ofWhole (n : Nat) (h : n ≤ twoPow 53) : (ofWhole n h).units = n * one := rfl

theorem isSome_atDigits? {m : Magnitude} {tenths width count : Nat}
    (h : m.readsBack ⟨tenths / tenPow (width - count), (width - count : Nat) - 1074⟩ = true) :
    (m.atDigits? tenths width count).isSome = true := by
  unfold atDigits?
  dsimp only
  rw [h]
  split <;> first | rfl | contradiction

/-- The fewer digits, the higher the last of them stands. -/
theorem exponent_of_atDigits? {m : Magnitude} {tenths width count : Nat} {d : Decimal}
    (h : m.atDigits? tenths width count = some d) :
    ((width - count : Nat) : Int) - 1074 ≤ d.exponent := by
  have hhigh : ∀ digits : Nat, ((width - count : Nat) : Int) - 1074 ≤
      (Decimal.mk digits ((width - count : Nat) - 1074)).dropZero.exponent := by
    intro digits
    unfold Decimal.dropZero
    dsimp only
    split <;> dsimp only <;> omega
  unfold atDigits? at h
  dsimp only at h
  split at h
  · obtain rfl := Option.some.inj h
    split
    · exact Int.le_refl _
    · exact hhigh _
  · obtain rfl := Option.some.inj h
    exact Int.le_refl _
  · obtain rfl := Option.some.inj h
    exact hhigh _
  · cases h

section

variable {m : Magnitude} {a : Nat} (hm : m.units = a * one) (hpos : 0 < a) (ha : a < twoPow 53)
include hm

theorem tenths_of_whole : m.tenths = a * tenPow 1074 := by
  refine Nat.eq_of_mul_eq_mul_right Number.one_pos ?_
  rw [tenths_mul_one, hm, Nat.mul_assoc, Nat.mul_assoc, Nat.mul_comm one]

include hpos ha

theorem toNumber_whole_iff {n : Nat} :
    (Decimal.mk n 0).toNumber false = .finite false m ↔ n = a := by
  have hfraction : n ≠ 0 → (Decimal.mk n 0).toNumber false = .ofFraction false n 1 := by
    intro hn
    have hone : n * tenPow 0 = n := Nat.mul_one n
    rw [Decimal.toNumber, if_neg hn]
    change (if 342 ≤ 0 then _ else Number.ofFraction false (n * tenPow 0) 1) = _
    rw [if_neg (by decide), hone]
  constructor
  · intro h
    by_cases hn : n = 0
    · rw [Decimal.toNumber, if_pos hn] at h
      have hunits : 0 = m.units := congrArg Magnitude.units (Number.finite.inj h).2
      have hzero := Nat.mul_eq_zero.1 (hunits.trans hm).symm
      have hone := Number.one_pos
      omega
    · rw [hfraction hn] at h
      by_cases hle : n ≤ twoPow 53
      · rw [Number.ofFraction_whole false hle] at h
        have hunits := congrArg Magnitude.units (Number.finite.inj h).2
        rw [units_ofWhole, hm] at hunits
        exact Nat.eq_of_mul_eq_mul_right Number.one_pos hunits
      · -- rounding would have to go down past a power of two
        have hbits : twoPow (53 + 1074) = twoPow 53 * one := by rw [twoPow_add, one]
        have hlarge : twoPow (53 + 1074) ≤ n * one := by
          rw [hbits]
          exact Nat.mul_le_mul_right _ (Nat.le_of_not_le hle)
        have hunits : nearest (n * one) 1 = m.units := by
          simp only [Number.ofFraction, Number.ofUnits] at h
          split at h
          · exact congrArg Magnitude.units (Number.finite.inj h).2
          · cases h
        have hnearest := twoPow_le_nearest hlarge
        rw [hunits, hm, hbits] at hnearest
        exact absurd (Nat.le_of_mul_le_mul_right hnearest Number.one_pos) (Nat.not_le.2 ha)
  · rintro rfl
    rw [hfraction (Nat.ne_of_gt hpos), Number.ofFraction_whole false (Nat.le_of_lt ha)]
    exact congrArg _ (ext_units hm.symm)

theorem width_of_whole : ∃ k ∈ List.range' 1 17, Decimal.width m.tenths = k + 1074 := by
  have hten : twoPow 3567 ≤ tenPow 1074 := by decide +kernel
  have hmax : twoPow 53 * tenPow 1074 < twoPow 3621 := by decide +kernel
  have htenths := tenths_of_whole hm
  have hlow : tenPow 1074 ≤ m.tenths := htenths ▸ Nat.le_mul_of_pos_left _ hpos
  have hhigh : m.tenths < twoPow 3621 :=
    calc m.tenths
        = a * tenPow 1074 := htenths
      _ ≤ twoPow 53 * tenPow 1074 := Nat.mul_le_mul_right _ (Nat.le_of_lt ha)
      _ < twoPow 3621 := hmax
  have hne : m.tenths ≠ 0 := Nat.ne_of_gt (Nat.lt_of_lt_of_le (tenPow_pos 1074) hlow)
  have hleast : 3567 ≤ m.tenths.log2 := (le_log2_iff_twoPow_le hne).2 (Nat.le_trans hten hlow)
  have hmost : m.tenths.log2 < 3621 := (log2_lt_iff_lt_twoPow hne).2 hhigh
  have hwidth := Decimal.lt_width hlow (by omega)
  have hwidth' := Decimal.width_le m.tenths
  refine ⟨Decimal.width m.tenths - 1074, List.mem_range'_1.2 ?_, ?_⟩ <;> omega

/-- All significant digits of a whole number are found before the search gets behind the point. -/
theorem exponent_shortest_of_whole : 0 ≤ m.shortest.exponent := by
  obtain ⟨k, hk, hwidth⟩ := width_of_whole hm hpos ha
  have hread :
      m.readsBack ⟨m.tenths / tenPow (k + 1074 - k), (k + 1074 - k : Nat) - 1074⟩ = true := by
    rw [Nat.add_sub_cancel_left, tenths_of_whole hm, Nat.mul_div_cancel _ (tenPow_pos 1074)]
    exact beq_iff_eq.2 ((toNumber_whole_iff hm hpos ha).2 rfl)
  obtain ⟨c, d, hck, hc, hfound⟩ := exists_of_findSome?_range' hk (isSome_atDigits? hread)
  have hexponent := exponent_of_atDigits? hc
  have hshortest : m.shortest = d := by
    simp only [shortest, hwidth, hfound, Option.getD_some]
  rw [hshortest]
  omega

theorem positional_shortest_of_whole : m.shortest.positional = Decimal.figures a := by
  have hunits : m.units ≠ 0 := by
    rw [hm]
    exact Nat.mul_ne_zero (Nat.ne_of_gt hpos) (Nat.ne_of_gt Number.one_pos)
  have hread := toNumber_shortest hunits false
  have hfinite : (m.shortest.toNumber false).isFinite = true := by
    rw [hread]
    rfl
  have hexponent := exponent_shortest_of_whole hm hpos ha
  have hout := (Decimal.toNumber_multipliedOut hfinite).trans hread
  generalize m.shortest = d at hexponent hout ⊢
  obtain ⟨digits, e | e⟩ := d
  · have hdigits : digits * tenPow e = a := (toNumber_whole_iff hm hpos ha).1 hout
    exact congrArg Decimal.figures hdigits
  · exact absurd hexponent (Int.not_le.2 (Int.negSucc_lt_zero e))

end

end Magnitude

theorem Number.display_of_whole {n : Number} {a : Nat} (h : n.toRat? = some (a : ℚ))
    (ha : a < twoPow 53) : n.display = toString a := by
  cases n with
  | nan => cases h
  | infinite s => cases h
  | finite s m =>
    obtain ⟨hunits, hsign⟩ := toRat?_eq_natCast_iff.1 h
    by_cases hz : a = 0
    · subst hz
      rw [display, if_pos (hunits.trans (Nat.zero_mul _))]
      rfl
    · have hne : m.units ≠ 0 := hunits ▸ Nat.mul_ne_zero hz (Nat.ne_of_gt one_pos)
      obtain rfl := hsign.resolve_right hz
      rw [display, if_neg hne, minus, if_neg Bool.false_ne_true,
        Magnitude.positional_shortest_of_whole hunits (Nat.pos_of_ne_zero hz) ha]
      rfl

/-! ### Numbers past the last address -/

theorem Magnitude.one_dvd_units {m : Magnitude} (h : twoPow 64 * one ≤ m.units) :
    one ∣ m.units := by
  have hbits : twoPow (64 + 1074) ≤ m.units := by rwa [twoPow_add, ← one]
  have hne : m.units ≠ 0 := Nat.ne_of_gt (Nat.lt_of_lt_of_le (twoPow_pos _) hbits)
  have hlog : 64 + 1074 ≤ m.units.log2 := (le_log2_iff_twoPow_le hne).2 hbits
  have hspacing : one ∣ spacing m.units := by
    rw [one, spacing]
    exact twoPow_dvd_twoPow (by omega)
  exact Nat.dvd_trans hspacing m.aligned

theorem Number.exists_natCast_of_le {n : Number} {q : ℚ} (h : n.toRat? = some q)
    (hq : 2 ^ 64 ≤ q) : ∃ a : Nat, n.toRat? = some (a : ℚ) ∧ 2 ^ 64 ≤ a := by
  cases n with
  | nan => cases h
  | infinite s => cases h
  | finite s m =>
    have hone : (0 : ℚ) < Magnitude.one := Nat.cast_pos.2 one_pos
    rw [← Option.some.inj h, le_div_iff₀ hone] at hq
    cases s with
    | true =>
      have hpos : (0 : ℚ) < 2 ^ 64 * Magnitude.one := mul_pos (by norm_num) hone
      have hneg : ((signed true m.units : Int) : ℚ) ≤ 0 := by simp [signed]
      exact absurd (hpos.trans_le (hq.trans hneg)) (lt_irrefl 0)
    | false =>
      have hunits : twoPow 64 * Magnitude.one ≤ m.units := by
        have hlimit : (2 : ℚ) ^ 64 = (twoPow 64 : Nat) := by norm_num [twoPow]
        rwa [hlimit, signed, if_neg Bool.false_ne_true, Int.cast_natCast, ← Nat.cast_mul,
          Nat.cast_le] at hq
      obtain ⟨a, ha⟩ := Magnitude.one_dvd_units hunits
      rw [Nat.mul_comm] at ha
      refine ⟨a, toRat?_eq_natCast_iff.2 ⟨ha, .inl rfl⟩, ?_⟩
      rw [ha] at hunits
      have hle : twoPow 64 ≤ a := Nat.le_of_mul_le_mul_right hunits one_pos
      exact hle

theorem Value.exists_denotes_of_not_belowLimit {v : Value} (h : ¬ v.BelowLimit) :
    v.toAddress = .ok (2 ^ 64 - 1) ∧ ∃ a, v.Denotes a ∧ 2 ^ 64 ≤ a := by
  cases v with
  | text s => exact absurd trivial h
  | number n =>
    obtain ⟨q, hn, hq⟩ : ∃ q : ℚ, n.toRat? = some q ∧ 2 ^ 64 ≤ q := by
      simpa only [BelowLimit, not_forall, not_lt, exists_prop] using h
    obtain ⟨a, ha, hlimit⟩ := Number.exists_natCast_of_le hn hq
    refine ⟨toAddress_eq_ok_iff.2 (address?_number.2 ⟨a, .number ha, ?_⟩), a, .number ha, hlimit⟩
    exact (Nat.min_eq_right (Nat.le_trans (Nat.sub_le _ _) hlimit)).symm

theorem Value.addressExact_iff {v : Value} : v.AddressExact ↔ v.BelowLimit := by
  constructor
  · intro h
    by_contra hlimit
    obtain ⟨haddress, a, ha, hle⟩ := exists_denotes_of_not_belowLimit hlimit
    have heq := ha.unique ((h.ok _).1 haddress).1
    omega
  · intro h
    constructor
    · intro a
      exact toAddress_eq_ok_iff.trans (address?_of_belowLimit h)
    · intro f
      rw [toAddress_eq_error_iff, Option.eq_none_iff_forall_ne_some]
      refine and_congr_left fun _ => forall_congr' fun a => ?_
      rw [ne_eq, address?_of_belowLimit h, not_and, Nat.not_lt]
      rfl

/-! ### Numbers and their texts -/

namespace Value

theorem denotes_toString (a : Nat) : (text (toString a)).Denotes a := by
  have hwrites := WritesNat.intro (.inl rfl) (Decimal.figures_ne_nil a)
    (Decimal.all_isDigit_figures a)
  rw [List.nil_append, ← ofDigits_eq_ofDigitChars, Decimal.ofDigits_figures] at hwrites
  have hnone : ([] : List Char).all Text.isBlank = true := rfl
  refine .text hnone hwrites hnone ?_
  rw [List.append_nil, List.nil_append]
  exact String.toList_ofList

theorem toAddress_eq_display_iff {n : Number} {a : Nat} (hn : n.toRat? = some (a : ℚ))
    (hdisplay : n.display = toString a) :
    (number n).toAddress = (text n.display).toAddress ↔ (number n).BelowLimit := by
  have hnumber : (number n).Denotes a := .number hn
  have htext : (text n.display).Denotes a := hdisplay ▸ denotes_toString a
  constructor
  · intro heq
    by_contra hlimit
    obtain ⟨haddress, b, hb, hle⟩ := exists_denotes_of_not_belowLimit hlimit
    have hlast := (address?_text.1 (toAddress_eq_ok_iff.1 (heq.symm.trans haddress))).1
    have hbeyond := hb.unique hnumber
    have hwithin := hlast.unique htext
    omega
  · intro hlimit
    have ha : a < 2 ^ 64 := by exact_mod_cast hlimit _ hn
    rw [((addressExact_iff.2 hlimit).ok a).2 ⟨hnumber, ha⟩]
    exact (toAddress_eq_ok_iff.2 (address?_text.2 ⟨htext, ha⟩)).symm

end Value

/-- A value has the natural below `2 ^ 64` that it denotes as its address, and none if there is
none, exactly if it is not a number from `2 ^ 64` on. A number that its text shows in full has the
address of its text under the same condition. Below `2 ^ 53` every number is shown in full; from
there on the shortest text that reads back as the number need not show all of its digits. -/
theorem address_exact_iff_below_limit (v : Value) :
    (v.AddressExact ↔ v.BelowLimit) ∧
      ∀ (n : Number) (a : Nat), v = .number n → n.toRat? = some (a : ℚ) →
        (n.display = toString a →
          (v.toAddress = (Value.text n.display).toAddress ↔ v.BelowLimit)) ∧
        (a < 2 ^ 53 → n.display = toString a) := by
  refine ⟨Value.addressExact_iff, ?_⟩
  rintro n a rfl hn
  exact ⟨Value.toAddress_eq_display_iff hn, Number.display_of_whole hn⟩

theorem address_exact_iff_below_limit_of_seventeen :
    (Value.number (.ofNat 17)).toAddress = .ok 17 ∧ (Value.text "\t+017 ").toAddress = .ok 17 ∧
      (Value.text (Number.ofNat 17).display).toAddress = .ok 17 := by
  have hrat : (Number.ofNat 17).toRat? = some ((17 : Nat) : ℚ) := Number.toRat?_ofNat (by decide)
  have hlimit : (Value.number (.ofNat 17)).BelowLimit := by
    intro q hq
    obtain rfl := Option.some.inj (hrat.symm.trans hq)
    norm_num
  obtain ⟨hexact, halike⟩ := address_exact_iff_below_limit (.number (.ofNat 17))
  have hnumber := ((hexact.2 hlimit).ok 17).2 ⟨.number hrat, by decide⟩
  obtain ⟨hsame, hshown⟩ := halike _ 17 rfl hrat
  have hdisplay := (hsame (hshown (by decide))).2 hlimit
  have hwrites : WritesNat (['+'] ++ "017".toList) 17 := .intro (.inr rfl) (by decide) (by decide)
  have hbefore : ['\t'].all Text.isBlank = true := by decide
  have hafter : [' '].all Text.isBlank = true := by decide
  have htext := (((address_exact_iff_below_limit (.text "\t+017 ")).1.2 trivial).ok 17).2
    ⟨.text hbefore hwrites hafter (by decide), by decide⟩
  exact ⟨hnumber, htext, hdisplay ▸ hnumber⟩

/-- The shortest text of `2 ^ 60` ends in zeros, so number and text have different addresses. -/
example :
    let n := Number.ofNat (2 ^ 60)
    n.display = "1152921504606847000" ∧
      (Value.text n.display).toAddress = .ok 1152921504606847000 ∧
      (Value.number n).toAddress = .ok 1152921504606846976 ∧ 2 ^ 60 = 1152921504606846976 := by
  decide +kernel

/-- The text of `10 ^ 20` shows it in full and is refused, and the number itself is not. -/
theorem address_of_number_past_limit :
    let n := Number.ofNat (10 ^ 20)
    n.toRat? = some ((10 ^ 20 : Nat) : ℚ) ∧ n.display = toString (10 ^ 20) ∧
      (Value.number n).toAddress = .ok (2 ^ 64 - 1) ∧ ¬ (Value.number n).Denotes (2 ^ 64 - 1) ∧
      (Value.text n.display).toAddress = .error (.integerExpected n.display) := by
  intro n
  have hrat : n.toRat? = some ((10 ^ 20 : Nat) : ℚ) := by
    let m : Magnitude := ⟨10 ^ 20 * Magnitude.one, by decide +kernel, by decide +kernel⟩
    have hn : n = .finite false m := Number.ofUnits_units false m
    rw [hn]
    exact Number.toRat?_eq_natCast_iff.2 ⟨rfl, .inl rfl⟩
  refine ⟨hrat, by decide +kernel, by decide +kernel, ?_, by decide +kernel⟩
  intro hlast
  exact absurd (hlast.unique (.number hrat)) (by decide)

end LineAsm
