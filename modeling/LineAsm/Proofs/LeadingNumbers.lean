import LineAsm.Proofs.Numerals
import LineAsm.Value

set_option autoImplicit false

/-!
# The number at the start of a text

The number read from the start of a text is that of the longest numeral there. `Bytes.ofLeading?`
reads the same number by positions in the UTF-8 bytes of the text, and has no answer where it would
look past the end or cut a character. It always has one: all that a scan passes over is ASCII, so
every position it comes to lies between two characters.
-/

namespace LineAsm

open Text (StopsAt)

namespace Text

def bytes (cs : List Char) : List UInt8 := cs.flatMap String.utf8EncodeChar

/-- The characters before and after a position in the bytes, if it lies between two characters. -/
def splitAtByte? : Nat → List Char → Option (List Char × List Char)
  | 0, cs => some ([], cs)
  | _ + 1, [] => none
  | n + 1, c :: cs =>
    if c.utf8Size ≤ n + 1 then
      (splitAtByte? (n + 1 - c.utf8Size) cs).map fun (before, after) => (c :: before, after)
    else none

def isAscii (c : Char) : Bool := c.toNat < 128

end Text

/-! ### Reading by positions -/

namespace Bytes

def isDigit (b : UInt8) : Bool := '0'.toUInt8 ≤ b && b ≤ '9'.toUInt8

/-- How many digits stand from a position on, unless it is past the end. -/
def digitsFrom (bs : List UInt8) (i : Nat) : Option Nat :=
  if i ≤ bs.length then some ((bs.drop i).takeWhile isDigit).length else none

def hasAt (bs : List UInt8) (i : Nat) (c : Char) : Bool := bs[i]? == some c.toUInt8

def afterSign (bs : List UInt8) (i : Nat) : Nat :=
  if hasAt bs i '+' || hasAt bs i '-' then i + 1 else i

/-- Where the digits and the point end that start at a position, if there are digits. -/
def afterMantissa (bs : List UInt8) (i : Nat) : Option (Option Nat) := do
  let ints ← digitsFrom bs i
  if hasAt bs (i + ints) '.' then
    let fraction ← digitsFrom bs (i + ints + 1)
    return if ints = 0 ∧ fraction = 0 then none else some (i + ints + 1 + fraction)
  else
    return if ints = 0 then none else some (i + ints)

/-- Where the exponent ends that starts at a position, or the position itself. -/
def afterExponent (bs : List UInt8) (i : Nat) : Option Nat := do
  if hasAt bs i 'e' || hasAt bs i 'E' then
    let j := afterSign bs (i + 1)
    let ds ← digitsFrom bs j
    return if ds = 0 then i else j + ds
  else
    return i

/-- The number at the start of a text, read by positions; no answer if one of them is out of
bounds or inside a character. -/
def ofLeading? (cs : List Char) : Option (Option Number) := do
  let cs := Text.trimStart cs
  let bs := Text.bytes cs
  let start := afterSign bs 0
  let (_, unsigned) ← Text.splitAtByte? start cs
  if Number.infinityWord.isPrefixOf unsigned then
    let (word, _) ← Text.splitAtByte? (start + 8) cs
    return Number.ofText? word
  else
    match ← afterMantissa bs start with
    | none => return none
    | some i =>
      let j ← afterExponent bs i
      let (numeral, _) ← Text.splitAtByte? j cs
      return Number.ofText? numeral

end Bytes

/-! ### Bytes and characters -/

namespace Text

theorem bytes_cons (c : Char) (cs : List Char) :
    bytes (c :: cs) = String.utf8EncodeChar c ++ bytes cs := List.flatMap_cons

theorem bytes_append (xs ys : List Char) : bytes (xs ++ ys) = bytes xs ++ bytes ys :=
  List.flatMap_append

theorem toNat_toUInt8 {c : Char} (h : isAscii c = true) : c.toUInt8.toNat = c.toNat := by
  have hlt : c.toNat < 128 := of_decide_eq_true h
  change c.toNat % 256 = c.toNat
  omega

theorem utf8Size_of_isAscii {c : Char} (h : isAscii c = true) : c.utf8Size = 1 := by
  have hlt : c.toNat < 128 := of_decide_eq_true h
  rw [Char.utf8Size_eq_one_iff, UInt32.le_iff_toNat_le]
  exact Nat.le_of_lt_succ hlt

theorem utf8EncodeChar_of_isAscii {c : Char} (h : isAscii c = true) :
    String.utf8EncodeChar c = [c.toUInt8] :=
  String.utf8EncodeChar_eq_singleton (utf8Size_of_isAscii h)

theorem exists_utf8EncodeChar {c : Char} (h : isAscii c = false) :
    ∃ b bs, String.utf8EncodeChar c = b :: bs ∧ 128 ≤ b.toNat := by
  have hge : ¬ c.val.toNat ≤ 127 := by
    have hlt : ¬ c.toNat < 128 := of_decide_eq_false h
    exact fun hle => hlt (Nat.lt_succ_of_le hle)
  rw [String.utf8EncodeChar, if_neg hge]
  split
  · refine ⟨_, _, rfl, ?_⟩
    rw [UInt8.toNat_ofNat']
    omega
  split
  · refine ⟨_, _, rfl, ?_⟩
    rw [UInt8.toNat_ofNat']
    omega
  · refine ⟨_, _, rfl, ?_⟩
    rw [UInt8.toNat_ofNat']
    omega

theorem head?_bytes {a : Char} (ha : isAscii a = true) (cs : List Char) :
    (bytes cs).head? = some a.toUInt8 ↔ cs.head? = some a := by
  have hbyte := toNat_toUInt8 ha
  have hlt : a.toNat < 128 := of_decide_eq_true ha
  cases cs with
  | nil => simp [bytes]
  | cons c cs =>
    cases hc : isAscii c with
    | true =>
      have hbyte' := toNat_toUInt8 hc
      rw [bytes_cons, utf8EncodeChar_of_isAscii hc]
      simp only [List.singleton_append, List.head?_cons, Option.some.injEq]
      rw [← UInt8.toNat_inj, hbyte, hbyte', Char.toNat_inj]
    | false =>
      obtain ⟨b, bs, henc, hb⟩ := exists_utf8EncodeChar hc
      have hge : ¬ c.toNat < 128 := of_decide_eq_false hc
      rw [bytes_cons, henc]
      simp only [List.cons_append, List.head?_cons, Option.some.injEq]
      rw [← UInt8.toNat_inj, ← Char.toNat_inj]
      omega

theorem isDigit_toUInt8 {c : Char} (h : isAscii c = true) :
    Bytes.isDigit c.toUInt8 = c.isDigit := by
  rw [Bool.eq_iff_iff, Munch.isDigit_iff, Bytes.isDigit, Bool.and_eq_true, decide_eq_true_eq,
    decide_eq_true_eq, UInt8.le_iff_toNat_le, UInt8.le_iff_toNat_le, toNat_toUInt8 h]
  exact Iff.rfl

theorem isAscii_of_isDigit {c : Char} (h : c.isDigit = true) : isAscii c = true := by
  obtain ⟨-, h9⟩ := Munch.isDigit_iff.1 h
  exact decide_eq_true (by omega)

theorem length_takeWhile_bytes (cs : List Char) :
    ((bytes cs).takeWhile Bytes.isDigit).length = (cs.takeWhile Char.isDigit).length := by
  induction cs with
  | nil => rfl
  | cons c cs ih =>
    rw [bytes_cons]
    cases hc : isAscii c with
    | true =>
      rw [utf8EncodeChar_of_isAscii hc, List.singleton_append, List.takeWhile_cons,
        List.takeWhile_cons, isDigit_toUInt8 hc]
      split
      · rw [List.length_cons, List.length_cons, ih]
      · rfl
    | false =>
      obtain ⟨b, bs, henc, hb⟩ := exists_utf8EncodeChar hc
      have hbyte : Bytes.isDigit b = false := by
        rw [Bytes.isDigit, Bool.and_eq_false_iff]
        refine .inr (decide_eq_false ?_)
        rw [UInt8.le_iff_toNat_le]
        change ¬ b.toNat ≤ 57
        omega
      have hchar : c.isDigit = false := by
        rw [← Bool.not_eq_true]
        intro hd
        rw [isAscii_of_isDigit hd] at hc
        cases hc
      rw [henc, List.cons_append, List.takeWhile_cons, List.takeWhile_cons, hbyte, hchar]
      rfl

/-! ### Positions after ASCII -/

section

variable {t : List Char} (ht : t.all isAscii = true) (r : List Char)

include ht

theorem length_bytes_of_isAscii : (bytes t).length = t.length := by
  induction t with
  | nil => rfl
  | cons c t ih =>
    rw [List.all_cons, Bool.and_eq_true] at ht
    rw [bytes_cons, utf8EncodeChar_of_isAscii ht.1, List.singleton_append, List.length_cons,
      List.length_cons, ih ht.2]

theorem splitAtByte?_append : splitAtByte? t.length (t ++ r) = some (t, r) := by
  induction t with
  | nil =>
    rw [List.length_nil]
    unfold splitAtByte?
    rfl
  | cons c t ih =>
    rw [List.all_cons, Bool.and_eq_true] at ht
    rw [List.length_cons, List.cons_append, splitAtByte?, utf8Size_of_isAscii ht.1,
      if_pos (by omega), Nat.add_sub_cancel, ih ht.2]
    rfl

theorem drop_bytes_append : (bytes (t ++ r)).drop t.length = bytes r := by
  rw [bytes_append, ← length_bytes_of_isAscii ht, List.drop_left]

end

end Text

theorem Sign.all_isAscii {sign : List Char} {negative : Bool} (h : Sign sign negative) :
    sign.all Text.isAscii = true := by
  cases h <;> decide

theorem all_isAscii_of_all_isDigit {ds : List Char} (h : ds.all Char.isDigit = true) :
    ds.all Text.isAscii = true :=
  List.all_eq_true.2 fun c hc => Text.isAscii_of_isDigit (List.all_eq_true.1 h c hc)

theorem Decimal.Fraction.all_isAscii {point fraction : List Char} (h : Fraction point fraction) :
    point.all Text.isAscii = true := by
  cases h with
  | absent => rfl
  | point hds =>
    rw [List.all_cons, all_isAscii_of_all_isDigit hds]
    decide

theorem Decimal.Exponent.all_isAscii {power : List Char} {e : Int} (h : Exponent power e) :
    power.all Text.isAscii = true := by
  cases h with
  | absent => rfl
  | power hmark hsign hne hds =>
    rw [List.all_cons, List.all_append, hsign.all_isAscii, all_isAscii_of_all_isDigit hds]
    rcases hmark with rfl | rfl <;> decide

namespace Bytes

variable {t : List Char} (ht : t.all Text.isAscii = true) (r : List Char)

include ht

theorem digitsFrom_append :
    digitsFrom (Text.bytes (t ++ r)) t.length = some (r.takeWhile Char.isDigit).length := by
  have hle : t.length ≤ (Text.bytes (t ++ r)).length := by
    rw [Text.bytes_append, List.length_append, Text.length_bytes_of_isAscii ht]
    exact Nat.le_add_right _ _
  rw [digitsFrom, if_pos hle, Text.drop_bytes_append ht, Text.length_takeWhile_bytes]

theorem hasAt_append {a : Char} (ha : Text.isAscii a = true) :
    hasAt (Text.bytes (t ++ r)) t.length a = (r.head? == some a) := by
  rw [Bool.eq_iff_iff, hasAt, beq_iff_eq, beq_iff_eq, ← List.head?_drop, Text.drop_bytes_append ht,
    Text.head?_bytes ha]

theorem exists_afterSign :
    ∃ sign, Sign sign (splitSign r).1 ∧ r = sign ++ (splitSign r).2 ∧
      afterSign (Text.bytes (t ++ r)) t.length = (t ++ sign).length := by
  simp only [afterSign, hasAt_append ht r (show Text.isAscii '+' = true by decide),
    hasAt_append ht r (show Text.isAscii '-' = true by decide)]
  unfold splitSign
  split
  · exact ⟨_, .plus, rfl, by simp⟩
  · exact ⟨_, .minus, rfl, by simp⟩
  · rename_i hplus hminus
    refine ⟨[], .absent, rfl, ?_⟩
    have hnone : (r.head? == some '+' || r.head? == some '-') = false := by
      rw [Bool.or_eq_false_iff, beq_eq_false_iff_ne, beq_eq_false_iff_ne]
      constructor <;> intro hhead <;> obtain ⟨cs, hcs⟩ := List.head?_eq_some_iff.1 hhead
      · exact hplus cs hcs
      · exact hminus cs hcs
    rw [hnone, List.append_nil]
    rfl

theorem exists_afterMantissa :
    let ints := r.takeWhile Char.isDigit
    let (fraction, after) := Decimal.splitFraction (r.dropWhile Char.isDigit)
    ∃ point, Decimal.Fraction point fraction ∧ r = ints ++ (point ++ after) ∧
      afterMantissa (Text.bytes (t ++ r)) t.length =
        some (if ints.isEmpty && fraction.isEmpty then none
          else some (t ++ (ints ++ point)).length) := by
  have hall : (r.takeWhile Char.isDigit).all Text.isAscii = true :=
    all_isAscii_of_all_isDigit List.all_takeWhile
  have hr := (List.takeWhile_append_dropWhile (p := Char.isDigit) (l := r)).symm
  have hints := digitsFrom_append ht r
  generalize r.takeWhile Char.isDigit = ints at hall hr hints ⊢
  generalize r.dropWhile Char.isDigit = after at hr ⊢
  subst hr
  have hascii : (t ++ ints).all Text.isAscii = true := by rw [List.all_append, ht, hall]; rfl
  have hdot := hasAt_append hascii after (show Text.isAscii '.' = true by decide)
  rw [List.append_assoc, List.length_append] at hdot
  simp only [afterMantissa, hints, Option.bind_eq_bind, Option.bind_some, hdot]
  unfold Decimal.splitFraction
  split
  · rename_i cs
    have hpoint : (t ++ ints ++ ['.']).all Text.isAscii = true := by
      rw [List.all_append, hascii]
      decide
    have hfraction := digitsFrom_append hpoint cs
    simp only [List.append_assoc, List.length_append, List.length_singleton, List.singleton_append,
      ← Nat.add_assoc] at hfraction
    refine ⟨_, .point List.all_takeWhile, ?_, ?_⟩
    · rw [List.cons_append, List.takeWhile_append_dropWhile]
    · have hend : (t ++ (ints ++ '.' :: cs.takeWhile Char.isDigit)).length =
          t.length + ints.length + 1 + (cs.takeWhile Char.isDigit).length := by
        simp only [List.length_append, List.length_cons]
        omega
      simp only [List.head?_cons, beq_self_eq_true, if_true, hfraction, Option.bind_some, hend,
        Bool.and_eq_true, List.isEmpty_iff_length_eq_zero]
      rfl
  · rename_i hno
    have hnone : (after.head? == some '.') = false := by
      rw [beq_eq_false_iff_ne]
      intro hhead
      obtain ⟨cs, hcs⟩ := List.head?_eq_some_iff.1 hhead
      exact hno cs hcs
    refine ⟨_, .absent, rfl, ?_⟩
    simp [hnone, List.length_eq_zero_iff]

theorem exists_afterExponent :
    ∃ power, Decimal.Exponent power (Decimal.splitExponent r).1 ∧
      r = power ++ (Decimal.splitExponent r).2 ∧
      afterExponent (Text.bytes (t ++ r)) t.length = some (t ++ power).length := by
  have hsmall := hasAt_append ht r (show Text.isAscii 'e' = true by decide)
  have hlarge := hasAt_append ht r (show Text.isAscii 'E' = true by decide)
  simp only [afterExponent, hsmall, hlarge]
  cases r with
  | nil => exact ⟨[], .absent, rfl, by simp⟩
  | cons mark tail =>
    rw [Decimal.splitExponent]
    by_cases hmark : mark = 'e' ∨ mark = 'E'
    · have hmarked : (t ++ [mark]).all Text.isAscii = true := by
        rw [List.all_append, ht]
        rcases hmark with rfl | rfl <;> decide
      have hfound : (mark == 'e' || mark == 'E') = true := by simpa using hmark
      obtain ⟨sign, hsign, htail, hafter⟩ := exists_afterSign hmarked tail
      generalize splitSign tail = parts at hsign htail
      obtain ⟨negative, unsigned⟩ := parts
      dsimp only at hsign htail
      subst htail
      have hsigned : (t ++ [mark] ++ sign).all Text.isAscii = true := by
        rw [List.all_append, hmarked]
        cases hsign <;> decide
      have hdigits := digitsFrom_append hsigned unsigned
      rw [List.append_assoc, List.append_assoc, List.singleton_append] at hdigits
      rw [List.append_assoc, List.length_append, List.length_singleton,
        List.singleton_append] at hafter
      rw [if_pos hmark]
      simp only [List.head?_cons, Option.some_beq_some, hfound, if_true, hafter, hdigits,
        Option.bind_eq_bind, Option.bind_some]
      by_cases hds : unsigned.takeWhile Char.isDigit = []
      · refine ⟨[], ?_, ?_, ?_⟩
        · simpa [hds] using Decimal.Exponent.absent
        · simp [hds]
        · simp [hds]
      · have hne : (unsigned.takeWhile Char.isDigit).isEmpty = false := by simpa using hds
        have hlen : (unsigned.takeWhile Char.isDigit).length ≠ 0 :=
          fun h => hds (List.length_eq_zero_iff.1 h)
        simp only [hne, Bool.false_eq_true, if_false, hlen]
        refine ⟨_, .power hmark hsign hds List.all_takeWhile, ?_, ?_⟩
        · rw [List.cons_append, List.append_assoc, List.takeWhile_append_dropWhile]
        · refine congrArg some ?_
          simp only [List.length_append, List.length_cons, List.length_nil]
          omega
    · have hnone : (mark == 'e' || mark == 'E') = false := by simpa using hmark
      refine ⟨[], ?_, ?_, ?_⟩
      · rw [if_neg hmark]
        exact .absent
      · rw [if_neg hmark]
        rfl
      · simp only [List.head?_cons, Option.some_beq_some, hnone, List.append_nil]
        rfl

end Bytes

theorem Number.ofText?_infinityWord {sign : List Char} {negative : Bool} (h : Sign sign negative) :
    ofText? (sign ++ infinityWord) = some (.infinite negative) := by
  cases h <;> decide +kernel

/-- Reading by positions always has an answer, and the right one. -/
theorem Bytes.ofLeading?_eq (cs : List Char) : ofLeading? cs = some (Number.ofLeading? cs) := by
  obtain ⟨sign, hs, hcs, hstart⟩ := exists_afterSign (t := []) rfl (Text.trimStart cs)
  rw [List.nil_append, List.nil_append, List.length_nil] at hstart
  unfold ofLeading? Number.ofLeading?
  generalize Text.trimStart cs = u at hs hcs hstart ⊢
  generalize splitSign u = parts at hs hcs ⊢
  obtain ⟨negative, unsigned⟩ := parts
  dsimp only at hs hcs ⊢
  subst hcs
  have hascii := hs.all_isAscii
  simp only [hstart, Text.splitAtByte?_append hascii, Option.bind_eq_bind, Option.bind_some]
  cases hinf : Number.infinityWord.isPrefixOf unsigned with
  | true =>
    obtain ⟨r, rfl⟩ := List.isPrefixOf_iff_prefix.1 hinf
    have hword : (sign ++ Number.infinityWord).all Text.isAscii = true := by
      rw [List.all_append, hascii]
      decide
    have hsplit := Text.splitAtByte?_append hword r
    rw [List.length_append, show Number.infinityWord.length = 8 by decide,
      List.append_assoc] at hsplit
    simp only [if_true, hsplit, Option.bind_some, Number.ofText?_infinityWord hs]
    rfl
  | false =>
    have hmantissa := exists_afterMantissa hascii unsigned
    simp only [Decimal.split?, Bool.false_eq_true, if_false]
    generalize Decimal.splitFraction (unsigned.dropWhile Char.isDigit) = parts at hmantissa ⊢
    obtain ⟨fraction, after⟩ := parts
    obtain ⟨point, hf, hunsigned, hend⟩ := hmantissa
    have hi : (unsigned.takeWhile Char.isDigit).all Char.isDigit = true := List.all_takeWhile
    generalize unsigned.takeWhile Char.isDigit = ints at hunsigned hend hi ⊢
    subst hunsigned
    rw [hend]
    cases hfound : ints.isEmpty && fraction.isEmpty with
    | true => rfl
    | false =>
      have hne : ints ≠ [] ∨ fraction ≠ [] := by
        rwa [← Bool.not_eq_true, Bool.and_eq_true, not_and_or, List.isEmpty_iff,
          List.isEmpty_iff] at hfound
      have hmantissa : (sign ++ (ints ++ point)).all Text.isAscii = true := by
        rw [List.all_append, List.all_append, hascii, all_isAscii_of_all_isDigit hi,
          hf.all_isAscii]
        rfl
      obtain ⟨power, he, hafter, hexponent⟩ := exists_afterExponent hmantissa after
      generalize Decimal.splitExponent after = parts at he hafter ⊢
      obtain ⟨e, rest⟩ := parts
      dsimp only at he hafter
      subst hafter
      have hnumeral : (sign ++ (ints ++ point) ++ power).all Text.isAscii = true := by
        rw [List.all_append, hmantissa, he.all_isAscii]
        rfl
      have hsplit := Text.splitAtByte?_append hnumeral rest
      have hread := Number.ofText?_append hs (.intro hi hf hne he)
      simp only [List.append_assoc] at hexponent hsplit hread ⊢
      simp only [Bool.false_eq_true, if_false, Option.bind_some, hexponent, hsplit, hread]
      rfl

/-! ### The longest numeral -/

namespace Munch

open Decimal (Writes)

theorem exists_of_rmatch_decimal {u v : List Char} (hv : v <+: u)
    (hacc : decimal.rmatch v = true) :
    ∃ sign t d r, Writes t d ∧ v = sign ++ t ∧ u = sign ++ (splitSign u).2 ∧
      (splitSign u).2 = t ++ r := by
  obtain ⟨r, rfl⟩ := hv
  obtain ⟨sign, negative, t, d, hs, ht, rfl⟩ := rmatch_decimal.1 hacc
  have hsplit := splitSign_append hs (ht.stopsAt Decimal.isSign_of_continuesMantissa r)
  rw [← List.append_assoc] at hsplit
  rw [hsplit]
  exact ⟨sign, t, d, r, ht, rfl, List.append_assoc _ _ _, rfl⟩

theorem longest?_decimal_of_some {u rest : List Char} {d : Decimal}
    (h : Decimal.split? (splitSign u).2 = some (d, rest)) :
    ∃ sign t, Sign sign (splitSign u).1 ∧ Writes t d ∧
      longest? decimal.rmatch u = some ⟨sign ++ t, rest⟩ := by
  obtain ⟨sign, hs, hu⟩ := exists_sign u
  obtain ⟨t, ht, hunsigned⟩ := Decimal.exists_writes_of_split? h
  refine ⟨sign, t, hs, ht, ?_⟩
  have hsplit : u = sign ++ t ++ rest := by rw [List.append_assoc, ← hunsigned, ← hu]
  rw [hsplit, longest?_eq_some]
  · exact rmatch_decimal.2 ⟨sign, _, t, d, hs, ht, rfl⟩
  · rw [← hsplit]
    intro v hv hacc
    obtain ⟨sign', t', d', r, ht', rfl, hu', hr⟩ := exists_of_rmatch_decimal hv hacc
    obtain ⟨d'', rest', htaken, hle⟩ := Decimal.split?_le ht' r
    rw [← hr, h] at htaken
    cases htaken
    have hsign := congrArg List.length (hu'.symm.trans hu)
    have hlen := congrArg List.length (hunsigned.symm.trans hr)
    simp only [List.length_append] at hsign hlen ⊢
    omega

theorem longest?_decimal_of_none {u : List Char} (h : Decimal.split? (splitSign u).2 = none) :
    longest? decimal.rmatch u = none := by
  apply longest?_eq_none
  intro v hv
  rw [← Bool.not_eq_true]
  intro hacc
  obtain ⟨sign, t, d, r, ht, -, -, hr⟩ := exists_of_rmatch_decimal hv hacc
  obtain ⟨d', rest, htaken, -⟩ := Decimal.split?_le ht r
  rw [← hr, h] at htaken
  cases htaken

end Munch

namespace Number

theorem ofLeading?_infinityWord {cs sign : List Char} {negative : Bool} (hs : Sign sign negative)
    (h : sign ++ infinityWord <+: Text.trimStart cs) :
    ofLeading? cs = some (.infinite negative) := by
  obtain ⟨r, hr⟩ := h
  have hprefix : infinityWord.isPrefixOf (infinityWord ++ r) = true :=
    List.isPrefixOf_iff_prefix.2 (List.prefix_append _ _)
  have hstop : StopsAt isSign (infinityWord ++ r) := rfl
  rw [List.append_assoc] at hr
  simp only [ofLeading?, ← hr, splitSign_append hs hstop, hprefix, if_true]

theorem ofLeading?_eq_longest {cs : List Char}
    (h : ∀ sign negative, Sign sign negative → ¬ sign ++ infinityWord <+: Text.trimStart cs) :
    ofLeading? cs =
      (Munch.longest? Munch.decimal.rmatch (Text.trimStart cs)).bind fun m => ofText? m.text := by
  obtain ⟨sign, hs, hu⟩ := exists_sign (Text.trimStart cs)
  have hword : infinityWord.isPrefixOf (splitSign (Text.trimStart cs)).2 = false := by
    rw [← Bool.not_eq_true, List.isPrefixOf_iff_prefix]
    intro hprefix
    refine h sign _ hs ?_
    rw [hu]
    exact (List.prefix_append_right_inj sign).2 hprefix
  simp only [ofLeading?, hword, Bool.false_eq_true, if_false]
  cases hsplit : Decimal.split? (splitSign (Text.trimStart cs)).2 with
  | none => rw [Munch.longest?_decimal_of_none hsplit]; rfl
  | some taken =>
    obtain ⟨d, rest⟩ := taken
    obtain ⟨sign, t, hs, ht, hlongest⟩ := Munch.longest?_decimal_of_some hsplit
    rw [hlongest, Option.bind_some, ofText?_append hs ht]
    rfl

end Number

/-- What a text is read as depends on its start, after blanks. With an optional sign and the word
for infinity there, it is that infinity, and no number for the machine. Otherwise it is the number
of the longest numeral there, which always reads as one, and nothing if there is no numeral. Texts
that read as a number from end to end are the numerals and a few words. Reading by positions in the
bytes of the text never cuts a character, whatever the text. -/
theorem leading_number_of_longest_numeral (s : String) :
    (∀ sign negative, Sign sign negative →
      sign ++ Number.infinityWord <+: Text.trimStart s.toList →
      Number.ofLeading? s.toList = some (.infinite negative) ∧
      (Value.text s).toNumber = .error (.notANumber (Text.quoted s)) ∧
      (Value.text s).isNumber = false) ∧
    ((∀ sign negative, Sign sign negative →
      ¬ sign ++ Number.infinityWord <+: Text.trimStart s.toList) →
      Number.ofLeading? s.toList =
        (Munch.longest? Munch.decimal.rmatch (Text.trimStart s.toList)).bind
          fun m => Number.ofText? m.text) ∧
    (∀ m, Munch.longest? Munch.decimal.rmatch (Text.trimStart s.toList) = some m →
      (Number.ofText? m.text).isSome = true) ∧
    (∀ t, (Number.ofText? t).isSome = true ↔ Munch.decimal.rmatch t = true ∨
      ∃ sign negative word, Sign sign negative ∧ t = sign ++ word ∧
        word.map Char.toLower ∈ Number.words) ∧
    Bytes.ofLeading? s.toList = some (Number.ofLeading? s.toList) := by
  refine ⟨?_, Number.ofLeading?_eq_longest, ?_, Number.isSome_ofText?_iff, Bytes.ofLeading?_eq _⟩
  · intro sign negative hs hprefix
    have hread := Number.ofLeading?_infinityWord hs hprefix
    have hnone : (Value.text s).number? = none := by
      simp only [Value.number?, hread]
      rfl
    refine ⟨hread, ?_, ?_⟩
    · simp only [Value.toNumber, hnone]
      rfl
    · simp only [Value.isNumber, hnone]
      rfl
  · intro m hm
    obtain ⟨hacc, -⟩ := Munch.exists_of_longest? hm
    exact (Number.isSome_ofText?_iff m.text).2 (.inl hacc)

/-- An exponent without digits is left behind, and so is what no numeral has; a long dash is no
sign, though the bytes are searched for one. -/
theorem leading_number_of_cut_exponent :
    Number.ofLeading? " -1.5e+é".toList = Number.ofText? "-1.5".toList ∧
      Bytes.ofLeading? "—5".toList = some none ∧
      (Value.text "+Infinity!").isNumber = false := by
  refine ⟨?_, ?_, ?_⟩
  · rw [(leading_number_of_longest_numeral " -1.5e+é").2.1]
    · have hlongest : Munch.longest? Munch.decimal.rmatch (Text.trimStart " -1.5e+é".toList) =
          some ⟨"-1.5".toList, "e+é".toList⟩ := by decide +kernel
      rw [hlongest]
      rfl
    · intro sign negative hs
      cases hs <;> decide +kernel
  · rw [(leading_number_of_longest_numeral "—5").2.2.2.2]
    decide +kernel
  · have hword : ['+'] ++ Number.infinityWord <+: Text.trimStart "+Infinity!".toList := by
      decide +kernel
    exact ((leading_number_of_longest_numeral "+Infinity!").1 ['+'] false .plus hword).2.2

end LineAsm
