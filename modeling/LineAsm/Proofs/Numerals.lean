import LineAsm.Number.Reader
import LineAsm.Proofs.MaximalMunch

set_option autoImplicit false

/-!
# Written decimals

`Decimal.Writes` says which texts write a decimal, and which decimal they write: digits with an
optional point among or beside them, and an optional exponent. Reading takes such a text from the
start of any other, and no such text at the start is longer than the one taken. So a numeral is read
as the same number alone, after blanks, and before anything that cannot continue it.
-/

namespace LineAsm

namespace Text

/-- The text does not go on with a character of the class. -/
def StopsAt (p : Char → Bool) (cs : List Char) : Prop := cs.head?.any p = false

theorem span_of_stopsAt {p : Char → Bool} {t r : List Char} (ht : t.all p = true)
    (hr : StopsAt p r) : (t ++ r).takeWhile p = t ∧ (t ++ r).dropWhile p = r := by
  have hall := List.all_eq_true.1 ht
  rw [List.takeWhile_append_of_pos hall, List.dropWhile_append_of_pos hall]
  cases r with
  | nil => simp
  | cons c r =>
    have hc : p c = false := hr
    simp [hc]

theorem StopsAt.mono {p q : Char → Bool} (hpq : ∀ c, q c = true → p c = true) {cs : List Char}
    (h : StopsAt p cs) : StopsAt q cs := by
  cases cs with
  | nil => rfl
  | cons c cs =>
    have hp : p c = false := h
    exact Bool.eq_false_iff.2 fun hq => Bool.false_ne_true (hp.symm.trans (hpq c hq))

end Text

open Text (StopsAt)

/-! ### Signs -/

/-- An optional sign, and whether it is a minus. -/
inductive Sign : List Char → Bool → Prop where
  | absent : Sign [] false
  | plus : Sign ['+'] false
  | minus : Sign ['-'] true

def isSign (c : Char) : Bool := c == '+' || c == '-'

theorem exists_sign (cs : List Char) :
    ∃ sign, Sign sign (splitSign cs).1 ∧ cs = sign ++ (splitSign cs).2 := by
  unfold splitSign
  split
  · exact ⟨_, .plus, rfl⟩
  · exact ⟨_, .minus, rfl⟩
  · exact ⟨_, .absent, rfl⟩

theorem splitSign_append {sign cs : List Char} {negative : Bool} (h : Sign sign negative)
    (hcs : StopsAt isSign cs) : splitSign (sign ++ cs) = (negative, cs) := by
  cases h with
  | absent =>
    rw [List.nil_append]
    unfold splitSign
    split
    · cases hcs
    · cases hcs
    · rfl
  | plus => rfl
  | minus => rfl

theorem isSign_of_isDigit {c : Char} (h : c.isDigit = true) : isSign c = false := by
  obtain ⟨h0, h9⟩ := Munch.isDigit_iff.1 h
  rw [isSign, Bool.or_eq_false_iff]
  constructor <;> rw [beq_eq_false_iff_ne] <;> rintro rfl <;> exact absurd h0 (by decide)

/-! ### Decimals -/

namespace Decimal

/-- An optional point, with the digits after it. -/
inductive Fraction : List Char → List Char → Prop where
  | absent : Fraction [] []
  | point {ds : List Char} (hds : ds.all Char.isDigit = true) : Fraction ('.' :: ds) ds

inductive Exponent : List Char → Int → Prop where
  | absent : Exponent [] 0
  | power {mark : Char} {sign ds : List Char} {negative : Bool} (hmark : mark = 'e' ∨ mark = 'E')
      (hsign : Sign sign negative) (hne : ds ≠ []) (hds : ds.all Char.isDigit = true) :
      Exponent (mark :: (sign ++ ds)) (Number.signed negative (exponentOf ds))

/-- The text writes the decimal. -/
inductive Writes : List Char → Decimal → Prop where
  | intro {ints point fraction power : List Char} {e : Int} (hi : ints.all Char.isDigit = true)
      (hf : Fraction point fraction) (hne : ints ≠ [] ∨ fraction ≠ []) (he : Exponent power e) :
      Writes (ints ++ (point ++ power)) ⟨ofDigits (ints ++ fraction), e - fraction.length⟩

def continuesMantissa (c : Char) : Bool := c.isDigit || c == '.'

def continues (c : Char) : Bool := continuesMantissa c || c == 'e' || c == 'E'

theorem continuesMantissa_of_isDigit (c : Char) (h : c.isDigit = true) :
    continuesMantissa c = true := by
  rw [continuesMantissa, h, Bool.true_or]

theorem continues_of_continuesMantissa (c : Char) (h : continuesMantissa c = true) :
    continues c = true := by
  rw [continues, h, Bool.true_or, Bool.true_or]

theorem mark_not_continuesMantissa {mark : Char} (h : mark = 'e' ∨ mark = 'E') :
    continuesMantissa mark = false := by
  rcases h with rfl | rfl <;> decide

theorem Writes.exists_cons {t : List Char} {d : Decimal} (h : Writes t d) :
    ∃ c cs, t = c :: cs ∧ continuesMantissa c = true := by
  obtain ⟨hi, hf, hne, he⟩ := h
  rename_i ints point fraction power e
  cases ints with
  | cons c ints =>
    rw [List.all_cons, Bool.and_eq_true] at hi
    exact ⟨c, _, rfl, continuesMantissa_of_isDigit c hi.1⟩
  | nil =>
    cases hf with
    | absent => exact absurd rfl (hne.resolve_left (· rfl))
    | point hds => exact ⟨'.', _, rfl, by decide⟩

theorem Writes.stopsAt {t : List Char} {d : Decimal} (h : Writes t d) {p : Char → Bool}
    (hp : ∀ c, continuesMantissa c = true → p c = false) (r : List Char) : StopsAt p (t ++ r) := by
  obtain ⟨c, cs, rfl, hc⟩ := h.exists_cons
  exact hp c hc

theorem isSign_of_continuesMantissa (c : Char) (h : continuesMantissa c = true) :
    isSign c = false := by
  rcases Bool.or_eq_true_iff.1 h with hd | hp
  · exact isSign_of_isDigit hd
  · obtain rfl := beq_iff_eq.1 hp
    decide

/-! #### What is taken writes a decimal -/

theorem exists_fraction (cs : List Char) :
    ∃ point, Fraction point (splitFraction cs).1 ∧ cs = point ++ (splitFraction cs).2 := by
  unfold splitFraction
  split
  · rename_i cs
    refine ⟨_, .point List.all_takeWhile, ?_⟩
    rw [List.cons_append, List.takeWhile_append_dropWhile]
  · exact ⟨_, .absent, rfl⟩

theorem exists_exponent (cs : List Char) :
    ∃ power, Exponent power (splitExponent cs).1 ∧ cs = power ++ (splitExponent cs).2 := by
  cases cs with
  | nil => exact ⟨[], .absent, rfl⟩
  | cons mark tail =>
    rw [splitExponent]
    split
    · rename_i hmark
      obtain ⟨sign, hsign, htail⟩ := exists_sign tail
      generalize splitSign tail = parts at hsign htail
      obtain ⟨negative, unsigned⟩ := parts
      dsimp only at hsign htail ⊢
      split
      · exact ⟨[], .absent, rfl⟩
      · rename_i hne
        refine ⟨_, .power hmark hsign (by simpa using hne) List.all_takeWhile, ?_⟩
        rw [htail, List.cons_append, List.append_assoc, List.takeWhile_append_dropWhile]
    · exact ⟨[], .absent, rfl⟩

theorem exists_writes_of_split? {cs rest : List Char} {d : Decimal}
    (h : split? cs = some (d, rest)) : ∃ t, Writes t d ∧ cs = t ++ rest := by
  unfold split? at h
  obtain ⟨point, hf, hpoint⟩ := exists_fraction (cs.dropWhile Char.isDigit)
  generalize splitFraction (cs.dropWhile Char.isDigit) = parts at h hf hpoint
  obtain ⟨fraction, after⟩ := parts
  dsimp only at h hf hpoint
  obtain ⟨power, he, hpower⟩ := exists_exponent after
  generalize splitExponent after = parts at h he hpower
  obtain ⟨e, last⟩ := parts
  dsimp only at h he hpower
  split at h
  · cases h
  · rename_i hne
    cases h
    refine ⟨_, .intro List.all_takeWhile hf ?_ he, ?_⟩
    · rwa [Bool.and_eq_true, not_and_or, List.isEmpty_iff, List.isEmpty_iff] at hne
    · rw [List.append_assoc, List.append_assoc, ← hpower, ← hpoint,
        List.takeWhile_append_dropWhile]

/-! #### What writes a decimal is taken -/

theorem splitFraction_append {point fraction r : List Char} (h : Fraction point fraction)
    (hr : StopsAt continuesMantissa r) : splitFraction (point ++ r) = (fraction, r) := by
  cases h with
  | absent =>
    rw [List.nil_append]
    unfold splitFraction
    split
    · cases hr
    · rfl
  | point hds =>
    obtain ⟨htake, hdrop⟩ := Text.span_of_stopsAt hds (hr.mono continuesMantissa_of_isDigit)
    rw [List.cons_append, splitFraction, htake, hdrop]

theorem splitExponent_power {mark : Char} {sign ds : List Char} {negative : Bool}
    (hmark : mark = 'e' ∨ mark = 'E') (hsign : Sign sign negative) (hne : ds ≠ [])
    (hds : ds.all Char.isDigit = true) (r : List Char) :
    splitExponent (mark :: (sign ++ ds) ++ r) =
      (Number.signed negative (exponentOf (ds ++ r.takeWhile Char.isDigit)),
        r.dropWhile Char.isDigit) := by
  have hall := List.all_eq_true.1 hds
  have hstop : StopsAt isSign (ds ++ r) := by
    obtain ⟨c, cs, rfl⟩ := List.exists_cons_of_ne_nil hne
    exact isSign_of_isDigit (hall c List.mem_cons_self)
  have hfound : (ds ++ r.takeWhile Char.isDigit).isEmpty = false := by simp [hne]
  rw [List.cons_append, List.append_assoc, splitExponent, if_pos hmark,
    splitSign_append hsign hstop]
  dsimp only
  rw [List.takeWhile_append_of_pos hall, List.dropWhile_append_of_pos hall, hfound]
  rfl

theorem splitExponent_append {power r : List Char} {e : Int} (h : Exponent power e)
    (hr : StopsAt continues r) : splitExponent (power ++ r) = (e, r) := by
  cases h with
  | absent =>
    cases r with
    | nil => rfl
    | cons c r =>
      have hc : continues c = false := hr
      have hmark : ¬ (c = 'e' ∨ c = 'E') := by
        rintro (rfl | rfl) <;> cases hc
      rw [List.nil_append, splitExponent, if_neg hmark]
  | power hmark hsign hne hds =>
    have hdigit : StopsAt Char.isDigit r :=
      hr.mono fun c h => continues_of_continuesMantissa c (continuesMantissa_of_isDigit c h)
    obtain ⟨htake, hdrop⟩ := Text.span_of_stopsAt (t := []) rfl hdigit
    rw [List.nil_append] at htake hdrop
    rw [splitExponent_power hmark hsign hne hds, htake, hdrop, List.append_nil]

theorem Exponent.stopsAt {power r : List Char} {e : Int} (h : Exponent power e)
    (hr : power = [] → StopsAt continuesMantissa r) : StopsAt continuesMantissa (power ++ r) := by
  cases h with
  | absent => exact hr rfl
  | power hmark => exact mark_not_continuesMantissa hmark

/-- Before an exponent, or a text that does not go on with digits or a point, the digits and the
point are taken exactly. -/
theorem split?_mantissa {ints point fraction r : List Char} (hi : ints.all Char.isDigit = true)
    (hf : Fraction point fraction) (hne : ints ≠ [] ∨ fraction ≠ [])
    (hr : StopsAt continuesMantissa r) :
    split? (ints ++ (point ++ r)) =
      some (⟨ofDigits (ints ++ fraction), (splitExponent r).1 - fraction.length⟩,
        (splitExponent r).2) := by
  have hstop : StopsAt Char.isDigit (point ++ r) := by
    cases hf with
    | absent => exact hr.mono continuesMantissa_of_isDigit
    | point hds => rfl
  obtain ⟨htake, hdrop⟩ := Text.span_of_stopsAt hi hstop
  have hfound : (ints.isEmpty && fraction.isEmpty) = false := by
    rwa [← Bool.not_eq_true, Bool.and_eq_true, not_and_or, List.isEmpty_iff, List.isEmpty_iff]
  simp only [split?, htake, hdrop, splitFraction_append hf hr, hfound, Bool.false_eq_true,
    if_false]

theorem split?_append {t r : List Char} {d : Decimal} (h : Writes t d)
    (hr : StopsAt continues r) : split? (t ++ r) = some (d, r) := by
  obtain ⟨hi, hf, hne, he⟩ := h
  have hstop := he.stopsAt fun _ => hr.mono continues_of_continuesMantissa
  rw [List.append_assoc, List.append_assoc, split?_mantissa hi hf hne hstop,
    splitExponent_append he hr]

/-! #### No more could be taken -/

theorem length_splitFraction_le (cs : List Char) :
    (splitFraction cs).2.length ≤ cs.length := by
  obtain ⟨point, -, heq⟩ := exists_fraction cs
  have hlen := congrArg List.length heq
  rw [List.length_append] at hlen
  omega

theorem length_splitExponent_le (cs : List Char) :
    (splitExponent cs).2.length ≤ cs.length := by
  obtain ⟨power, -, heq⟩ := exists_exponent cs
  have hlen := congrArg List.length heq
  rw [List.length_append] at hlen
  omega

/-- Whatever follows a text that writes a decimal, at least that text is taken. -/
theorem split?_le {t : List Char} {d : Decimal} (h : Writes t d) (r : List Char) :
    ∃ d' rest, split? (t ++ r) = some (d', rest) ∧ rest.length ≤ r.length := by
  obtain ⟨hi, hf, hne, he⟩ := h
  rename_i ints point fraction power e
  rw [List.append_assoc, List.append_assoc]
  cases he with
  | power hmark hsign hne' hds =>
    refine ⟨_, _, split?_mantissa hi hf hne (mark_not_continuesMantissa hmark), ?_⟩
    rw [splitExponent_power hmark hsign hne' hds]
    exact List.length_dropWhile_le _ _
  | absent =>
    rw [List.nil_append]
    have hall := List.all_eq_true.1 hi
    unfold split?
    rw [List.takeWhile_append_of_pos hall, List.dropWhile_append_of_pos hall]
    cases hf with
    | absent =>
      have hints : ints ≠ [] := hne.resolve_right (· rfl)
      have hle := length_splitFraction_le (r.dropWhile Char.isDigit)
      rw [List.nil_append]
      generalize splitFraction (r.dropWhile Char.isDigit) = parts at hle ⊢
      have hfound : (ints ++ r.takeWhile Char.isDigit).isEmpty = false := by simp [hints]
      simp only [hfound, Bool.false_and, Bool.false_eq_true, if_false]
      refine ⟨_, _, rfl, (length_splitExponent_le _).trans (hle.trans ?_)⟩
      exact List.length_dropWhile_le _ _
    | @point ds hds =>
      have hall' := List.all_eq_true.1 hds
      have hpoint : ('.' :: (fraction ++ r)).takeWhile Char.isDigit = [] := rfl
      have hafter : ('.' :: (fraction ++ r)).dropWhile Char.isDigit = '.' :: (fraction ++ r) := rfl
      rw [List.cons_append, hpoint, hafter, splitFraction, List.takeWhile_append_of_pos hall',
        List.dropWhile_append_of_pos hall']
      have hfound : ((ints ++ []).isEmpty && (fraction ++ r.takeWhile Char.isDigit).isEmpty) =
          false := by
        rcases hne with hne | hne <;> simp [hne]
      simp only [hfound, Bool.false_eq_true, if_false]
      refine ⟨_, _, rfl, (length_splitExponent_le _).trans ?_⟩
      exact List.length_dropWhile_le _ _

end Decimal

/-! ### Numerals as a regular expression -/

namespace Munch

open Decimal (Fraction Exponent Writes)

def sign : RegularExpression Char := 1 + (.char '+' + .char '-')

def digits : RegularExpression Char := digit * digit.star

/-- Digits and optionally a point that more digits may follow, or a point before digits. -/
def mantissa : RegularExpression Char :=
  digits * (1 + .char '.' * digit.star) + .char '.' * digits

def exponent : RegularExpression Char := (.char 'e' + .char 'E') * (sign * digits)

def decimal : RegularExpression Char := sign * (mantissa * (1 + exponent))

theorem mem_sign {t : List Char} : t ∈ sign.matches' ↔ ∃ negative, Sign t negative := by
  simp only [sign, RegularExpression.matches'_add, Language.mem_add]
  constructor
  · rintro (rfl | rfl | rfl)
    · exact ⟨_, .absent⟩
    · exact ⟨_, .plus⟩
    · exact ⟨_, .minus⟩
  · rintro ⟨_, h⟩
    cases h with
    | absent => exact .inl rfl
    | plus => exact .inr (.inl rfl)
    | minus => exact .inr (.inr rfl)

theorem mem_digits_of_ne_nil {t : List Char} :
    t ∈ digits.matches' ↔ t ≠ [] ∧ t.all Char.isDigit = true := by
  simp only [digits, RegularExpression.matches'_mul, Language.mem_mul, mem_digits, mem_digit]
  constructor
  · rintro ⟨_, ⟨c, hc, rfl⟩, ds, hds, rfl⟩
    exact ⟨List.cons_ne_nil _ _, by simp [hc, hds]⟩
  · rintro ⟨hne, hall⟩
    obtain ⟨c, ds, rfl⟩ := List.exists_cons_of_ne_nil hne
    rw [List.all_cons, Bool.and_eq_true] at hall
    exact ⟨[c], ⟨c, hall.1, rfl⟩, ds, hall.2, rfl⟩

theorem mem_mantissa {t : List Char} :
    t ∈ mantissa.matches' ↔ ∃ ints point fraction, ints.all Char.isDigit = true ∧
      Fraction point fraction ∧ (ints ≠ [] ∨ fraction ≠ []) ∧ t = ints ++ point := by
  simp only [mantissa, RegularExpression.matches'_add, RegularExpression.matches'_mul,
    Language.mem_add, Language.mem_mul, mem_digits, mem_digits_of_ne_nil]
  constructor
  · rintro (⟨ints, ⟨hne, hi⟩, point, hpoint, rfl⟩ | ⟨_, rfl, ds, ⟨hne, hds⟩, rfl⟩)
    · rcases hpoint with rfl | ⟨_, rfl, ds, hds, rfl⟩
      · exact ⟨ints, [], [], hi, .absent, .inl hne, rfl⟩
      · exact ⟨ints, _, ds, hi, .point hds, .inl hne, rfl⟩
    · exact ⟨[], _, ds, rfl, .point hds, .inr hne, rfl⟩
  · rintro ⟨ints, point, fraction, hi, hf, hne, rfl⟩
    by_cases hints : ints = []
    · subst hints
      cases hf with
      | absent => exact absurd rfl (hne.resolve_left (· rfl))
      | point hds => exact .inr ⟨['.'], rfl, _, ⟨hne.resolve_left (· rfl), hds⟩, rfl⟩
    · refine .inl ⟨ints, ⟨hints, hi⟩, point, ?_, rfl⟩
      cases hf with
      | absent => exact .inl rfl
      | point hds => exact .inr ⟨['.'], rfl, _, hds, rfl⟩

theorem mem_exponent {t : List Char} :
    t ∈ (1 + exponent).matches' ↔ ∃ e, Exponent t e := by
  simp only [exponent, RegularExpression.matches'_add, RegularExpression.matches'_mul,
    Language.mem_add, Language.mem_mul, mem_sign, mem_digits_of_ne_nil]
  constructor
  · rintro (rfl | ⟨_, hmark, _, ⟨sign, ⟨negative, hsign⟩, ds, ⟨hne, hds⟩, rfl⟩, rfl⟩)
    · exact ⟨0, .absent⟩
    · have hpower : ∀ mark, mark = 'e' ∨ mark = 'E' → ∃ e, Exponent (mark :: (sign ++ ds)) e :=
        fun mark h => ⟨_, .power h hsign hne hds⟩
      rcases hmark with rfl | rfl
      · exact hpower 'e' (.inl rfl)
      · exact hpower 'E' (.inr rfl)
  · rintro ⟨_, h⟩
    cases h with
    | absent => exact .inl rfl
    | @power mark sign ds negative hmark hsign hne hds =>
      refine .inr ⟨[mark], ?_, sign ++ ds, ⟨sign, ⟨negative, hsign⟩, ds, ⟨hne, hds⟩, rfl⟩, rfl⟩
      rcases hmark with rfl | rfl
      · exact .inl rfl
      · exact .inr rfl

theorem rmatch_decimal {t : List Char} :
    decimal.rmatch t = true ↔
      ∃ sign negative body d, Sign sign negative ∧ Writes body d ∧ t = sign ++ body := by
  rw [RegularExpression.rmatch_iff_matches', decimal, RegularExpression.matches'_mul,
    RegularExpression.matches'_mul]
  simp only [Language.mem_mul, mem_sign, mem_mantissa, mem_exponent]
  constructor
  · rintro ⟨sign, ⟨negative, hs⟩, _, ⟨_, ⟨ints, point, fraction, hi, hf, hne, rfl⟩, power, ⟨e, he⟩,
      rfl⟩, rfl⟩
    refine ⟨sign, negative, _, _, hs, .intro hi hf hne he, ?_⟩
    rw [List.append_assoc]
  · rintro ⟨sign, negative, _, _, hs, ⟨hi, hf, hne, he⟩, rfl⟩
    refine ⟨sign, ⟨negative, hs⟩, _, ⟨_, ⟨_, _, _, hi, hf, hne, rfl⟩, _, ⟨_, he⟩, rfl⟩, ?_⟩
    rw [List.append_assoc]

end Munch

/-! ### Reading numerals -/

namespace Number

open Decimal (Writes continuesMantissa continues)

theorem toLower_of_continuesMantissa {c : Char} (h : continuesMantissa c = true) :
    c.toLower = c := by
  apply Char.toLower_eq_of_not_isUpper
  intro hu
  rcases Bool.or_eq_true_iff.1 h with hd | hp
  · have ha : c.isAlpha = true := by simp [Char.isAlpha, hu]
    rw [Munch.isAlpha_of_isDigit hd] at ha
    cases ha
  · obtain rfl := beq_iff_eq.1 hp
    cases hu

/-- The words for infinity and `nan` do not begin like a decimal. -/
theorem map_toLower_ne {t : List Char} {d : Decimal} (h : Writes t d) {w : Char} {ws : List Char}
    (hw : continuesMantissa w = false) : t.map Char.toLower ≠ w :: ws := by
  obtain ⟨c, cs, rfl, hc⟩ := h.exists_cons
  rw [List.map_cons, toLower_of_continuesMantissa hc]
  rintro heq
  cases heq
  exact Bool.false_ne_true (hw.symm.trans hc)

theorem ofText?_append {sign t : List Char} {negative : Bool} {d : Decimal}
    (hs : Sign sign negative) (ht : Writes t d) :
    ofText? (sign ++ t) = some (d.toNumber negative) := by
  have hsign : splitSign (sign ++ t) = (negative, t) := by
    have hstop := ht.stopsAt Decimal.isSign_of_continuesMantissa []
    rw [List.append_nil] at hstop
    exact splitSign_append hs hstop
  have hsplit : Decimal.split? t = some (d, []) := by
    have happend := Decimal.split?_append ht (r := []) rfl
    rwa [List.append_nil] at happend
  have hinf : ¬ (t.map Char.toLower = "inf".toList ∨ t.map Char.toLower = "infinity".toList) :=
    not_or.2 ⟨map_toLower_ne ht (by decide), map_toLower_ne ht (by decide)⟩
  have hnan : t.map Char.toLower ≠ "nan".toList := map_toLower_ne ht (by decide)
  simp only [ofText?, hsign, if_neg hinf, if_neg hnan, hsplit]

/-- The words that read as numbers which are not finite, in any letter case. -/
def words : List (List Char) := ["inf".toList, "infinity".toList, "nan".toList]

/-- A text that reads as a number is a sign before a decimal or a word. -/
theorem ofText?_cases {cs : List Char} {n : Number} (h : ofText? cs = some n) :
    ∃ sign negative body, Sign sign negative ∧ cs = sign ++ body ∧
      ((∃ d, Writes body d ∧ n = d.toNumber negative) ∨
        body.map Char.toLower ∈ words ∧ n.isFinite = false) := by
  obtain ⟨sign, hs, hcs⟩ := exists_sign cs
  unfold ofText? at h
  generalize splitSign cs = parts at h hs hcs
  obtain ⟨negative, body⟩ := parts
  dsimp only at h hs hcs
  refine ⟨sign, negative, body, hs, hcs, ?_⟩
  split at h
  · rename_i hword
    cases h
    exact .inr ⟨by rcases hword with hw | hw <;> simp [words, hw], rfl⟩
  split at h
  · rename_i hword
    cases h
    exact .inr ⟨by simp [words, hword], rfl⟩
  split at h
  · rename_i d hsplit
    cases h
    obtain ⟨t, ht, heq⟩ := Decimal.exists_writes_of_split? hsplit
    rw [List.append_nil] at heq
    exact .inl ⟨d, heq ▸ ht, rfl⟩
  · cases h

theorem isSome_ofText?_word {sign word : List Char} {negative : Bool} (hs : Sign sign negative)
    (hw : word.map Char.toLower ∈ words) : (ofText? (sign ++ word)).isSome = true := by
  have hstop : StopsAt isSign word := by
    cases word with
    | nil => rfl
    | cons c word =>
      refine Bool.eq_false_iff.2 fun hc => ?_
      have hhead : c.toLower = 'i' ∨ c.toLower = 'n' := by
        simp only [words, List.mem_cons, List.map_cons, List.not_mem_nil, or_false] at hw
        rcases hw with hw | hw | hw
        · exact .inl (List.cons.inj hw).1
        · exact .inl (List.cons.inj hw).1
        · exact .inr (List.cons.inj hw).1
      rcases Bool.or_eq_true_iff.1 hc with hc | hc <;> obtain rfl := beq_iff_eq.1 hc <;>
        exact absurd hhead (by decide)
  simp only [ofText?, splitSign_append hs hstop]
  simp only [words, List.mem_cons, List.not_mem_nil, or_false] at hw
  split
  · rfl
  · rename_i hinf
    have hnan := (or_assoc.2 hw).resolve_left hinf
    rw [if_pos hnan]
    rfl

/-- Exactly the numerals and the words with a sign read as numbers. -/
theorem isSome_ofText?_iff (cs : List Char) :
    (ofText? cs).isSome = true ↔ Munch.decimal.rmatch cs = true ∨
      ∃ sign negative word, Sign sign negative ∧ cs = sign ++ word ∧
        word.map Char.toLower ∈ words := by
  rw [Munch.rmatch_decimal]
  constructor
  · intro h
    obtain ⟨n, hn⟩ := Option.isSome_iff_exists.1 h
    obtain ⟨sign, negative, body, hs, hcs, ⟨d, hd, -⟩ | ⟨hw, -⟩⟩ := ofText?_cases hn
    · exact .inl ⟨sign, negative, body, d, hs, hd, hcs⟩
    · exact .inr ⟨sign, negative, body, hs, hcs, hw⟩
  · rintro (⟨sign, negative, body, d, hs, hd, rfl⟩ | ⟨sign, negative, word, hs, rfl, hw⟩)
    · rw [ofText?_append hs hd]
      rfl
    · exact isSome_ofText?_word hs hw

theorem isBlank_of_continuesMantissa (c : Char) (h : continuesMantissa c = true) :
    Text.isBlank c = false := by
  rcases Bool.or_eq_true_iff.1 h with hd | hp
  · exact Munch.isBlank_of_isAlphanum (by simp [Char.isAlphanum, hd])
  · obtain rfl := beq_iff_eq.1 hp
    decide

theorem isPrefixOf_infinityWord {t : List Char} {d : Decimal} (h : Writes t d) (r : List Char) :
    infinityWord.isPrefixOf (t ++ r) = false := by
  obtain ⟨c, cs, rfl, hc⟩ := h.exists_cons
  have hne : ('I' == c) = false := by
    rw [beq_eq_false_iff_ne]
    rintro rfl
    cases hc
  rw [List.cons_append, show infinityWord = 'I' :: "nfinity".toList from rfl,
    List.isPrefixOf_cons_cons, hne, Bool.false_and]

theorem splitSign_trimStart_append {blanks sign t : List Char} {negative : Bool} {d : Decimal}
    (hb : blanks.all Text.isBlank = true) (hs : Sign sign negative) (ht : Writes t d)
    (r : List Char) :
    splitSign (Text.trimStart (blanks ++ (sign ++ (t ++ r)))) = (negative, t ++ r) := by
  have hblank : StopsAt Text.isBlank (sign ++ (t ++ r)) := by
    cases hs with
    | absent => exact ht.stopsAt isBlank_of_continuesMantissa r
    | plus => rfl
    | minus => rfl
  have htrim : Text.trimStart (blanks ++ (sign ++ (t ++ r))) = sign ++ (t ++ r) :=
    (Text.span_of_stopsAt hb hblank).2
  rw [htrim]
  exact splitSign_append hs (ht.stopsAt Decimal.isSign_of_continuesMantissa r)

theorem ofLeading?_append {blanks sign t r : List Char} {negative : Bool} {d : Decimal}
    (hb : blanks.all Text.isBlank = true) (hs : Sign sign negative) (ht : Writes t d)
    (hr : StopsAt continues r) :
    ofLeading? (blanks ++ (sign ++ (t ++ r))) = some (d.toNumber negative) := by
  simp only [ofLeading?, splitSign_trimStart_append hb hs ht r, isPrefixOf_infinityWord ht r,
    Bool.false_eq_true, if_false, Decimal.split?_append ht hr, Option.map_some]

theorem ofLeading?_numeral {sign t : List Char} {negative : Bool} {d : Decimal}
    (hs : Sign sign negative) (ht : Writes t d) :
    ofLeading? (sign ++ t) = some (d.toNumber negative) := by
  have hblanks : ([] : List Char).all Text.isBlank = true := rfl
  have hrest : StopsAt continues [] := rfl
  have happend := ofLeading?_append hblanks hs ht hrest
  rwa [List.append_nil, List.nil_append] at happend

end Number

end LineAsm
