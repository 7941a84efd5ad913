import LineAsm.Line
import Mathlib

set_option autoImplicit false

/-!
# Maximal munch

The table of patterns is tried from the top, and many of its words begin with another of its words.
Still the order does not matter: the characters at the head of a text determine the only pattern
that can match there, and reading by the table is reading by the longest tokens.
-/

namespace LineAsm

namespace Munch

/-- The longest prefix of a text that is accepted, and what follows it. -/
def longest? (accepts : List Char → Bool) (cs : List Char) : Option Match :=
  (cs.inits.filter accepts).getLast?.map fun t => ⟨t, cs.drop t.length⟩

def digit : RegularExpression Char :=
  ("0123456789".toList.map .char).foldr (· + ·) 0

/-- An optional minus, digits, and optionally a point that more digits may follow. -/
def numeral : RegularExpression Char :=
  (1 + .char '-') * (digit * digit.star * (1 + .char '.' * digit.star))

def headWord (cs : List Char) : String := .ofList ((cs.takeWhile isWordChar).map Char.toUpper)

/-- Where the body of a quoted text ends: at the first quote that no backslash precedes. -/
def bodyLength? (quote : Char) (cs : List Char) : Option Nat :=
  (cs.zip cs.tail).findIdx? fun (previous, c) => c == quote && previous != '\\'

/-- The token at the head of a text by the longest match; a blank is dropped. -/
def token? : List Char → Option (Option TokenKind × Match)
  | [] => none
  | c :: cs =>
    if Text.isBlank c then some (none, ⟨[], cs⟩)
    else if c.isAlpha then
      (Pattern.keywords.lookup (headWord (c :: cs))).map fun kind =>
        (some kind, ⟨(c :: cs).takeWhile isWordChar, (c :: cs).dropWhile isWordChar⟩)
    else if c.isDigit || (c == '-' && cs.head?.any Char.isDigit) then
      (longest? numeral.rmatch (c :: cs)).map fun m => (some .number, m)
    else if c == '"' || c == '\'' then
      (bodyLength? c (c :: cs)).map fun n => (some .string, ⟨cs.take n, cs.drop (n + 1)⟩)
    else if c == '@' then
      if cs.takeWhile isWordChar ≠ [] ∧ (cs.dropWhile isWordChar).all Text.isBlank then
        some (some .label, ⟨c :: cs.takeWhile isWordChar, []⟩)
      else none
    else none

theorem exists_of_longest? {accepts : List Char → Bool} {cs : List Char} {m : Match}
    (h : longest? accepts cs = some m) : accepts m.text = true ∧ cs = m.text ++ m.rest := by
  obtain ⟨t, ht, rfl⟩ := Option.map_eq_some_iff.1 h
  obtain ⟨hmem, hacc⟩ := List.mem_filter.1 (List.mem_of_getLast? ht)
  obtain ⟨r, rfl⟩ := (List.mem_inits t cs).1 hmem
  exact ⟨hacc, by rw [List.drop_left]⟩

theorem length_rest_lt {cs : List Char} {kind : Option TokenKind} {m : Match}
    (h : token? cs = some (kind, m)) : m.rest.length < cs.length := by
  cases cs with
  | nil => cases h
  | cons c cs =>
    unfold token? at h
    dsimp only at h
    split at h
    · cases h
      exact Nat.lt_succ_self _
    split at h
    · rename_i ha
      obtain ⟨k, -, heq⟩ := Option.map_eq_some_iff.1 h
      cases heq
      have hc : isWordChar c = true := by simp [isWordChar, Char.isAlphanum, ha]
      rw [List.dropWhile_cons_of_pos hc]
      exact Nat.lt_succ_of_le (List.length_dropWhile_le _ _)
    split at h
    · obtain ⟨m, hm, heq⟩ := Option.map_eq_some_iff.1 h
      cases heq
      obtain ⟨hacc, hcs⟩ := exists_of_longest? hm
      have hne : m.text ≠ [] := by
        intro hnil
        rw [hnil] at hacc
        exact absurd hacc (by decide +kernel)
      rw [hcs, List.length_append]
      have := List.length_pos_of_ne_nil hne
      omega
    split at h
    · obtain ⟨n, -, heq⟩ := Option.map_eq_some_iff.1 h
      cases heq
      simp only [List.length_drop, List.length_cons]
      omega
    split at h
    · split at h
      · cases h
        exact Nat.succ_pos _
      · cases h
    · cases h

/-- Takes the longest tokens from a text; the rest where there is none is an error. -/
def tokens (cs : List Char) : Except (List Char) (List (TokenKind × List Char)) :=
  if cs = [] then .ok []
  else
    match _ : token? cs with
    | none => .error cs
    | some (none, m) => tokens m.rest
    | some (some kind, m) => (tokens m.rest).map ((kind, m.text) :: ·)
termination_by cs.length
decreasing_by all_goals exact length_rest_lt (by assumption)

def beforeSlashes (text : List Char) : List Char :=
  text.take (text.tails.findIdx (['/', '/'].isPrefixOf ·))

def line (index : Nat) (text : List Char) : Except Diagnostic Line :=
  match tokens (beforeSlashes text) with
  | .error rest =>
    .error ⟨.syntaxError, some index, "UNEXPECTED TOKEN " ++ .ofList (Text.trimEnd rest)⟩
  | .ok found =>
    if 3 < found.length then .error ⟨.syntaxError, some index, "TOO MANY OPERANDS"⟩
    else
      match found.map fun (kind, spelling) => Token.spelled kind (.ofList spelling) index with
      | [] => .ok ⟨⟨.skip, "", index⟩, []⟩
      | head :: operands => .ok ⟨head, operands⟩

theorem filter_inits_eq_nil {accepts : List Char → Bool} {cs : List Char}
    (h : ∀ t, t <+: cs → accepts t = false) : cs.inits.filter accepts = [] := by
  rw [List.filter_eq_nil_iff]
  intro t ht
  rw [h t ((List.mem_inits t cs).1 ht)]
  exact Bool.false_ne_true

theorem getLast?_filter_inits {accepts : List Char → Bool} {t r : List Char}
    (ha : accepts t = true) (hmax : ∀ u, u <+: t ++ r → accepts u = true → u.length ≤ t.length) :
    ((t ++ r).inits.filter accepts).getLast? = some t := by
  induction t generalizing accepts with
  | nil =>
    cases r with
    | nil => simp [ha]
    | cons c r =>
      have hnil : r.inits.filter (accepts ∘ (c :: ·)) = [] := by
        apply filter_inits_eq_nil
        intro u hu
        rw [← Bool.not_eq_true]
        intro hc
        exact absurd (hmax (c :: u) (by simpa using hu) hc) (by simp)
      rw [List.nil_append, List.inits_cons, List.filter_cons_of_pos ha, List.filter_map, hnil]
      rfl
  | cons c t ih =>
    have h : ((t ++ r).inits.filter (accepts ∘ (c :: ·))).getLast? = some t := by
      apply ih ha
      intro u hu hc
      have hle := hmax (c :: u) (by simpa using hu) hc
      simpa using hle
    have hlast : (((t ++ r).inits.filter (accepts ∘ (c :: ·))).map (c :: ·)).getLast? =
        some (c :: t) := by
      rw [List.getLast?_map, h]
      rfl
    rw [List.cons_append, List.inits_cons, List.filter_cons, List.filter_map]
    split
    · rw [List.getLast?_cons, hlast]
      rfl
    · exact hlast

theorem longest?_eq_some {accepts : List Char → Bool} {t r : List Char}
    (ha : accepts t = true) (hmax : ∀ u, u <+: t ++ r → accepts u = true → u.length ≤ t.length) :
    longest? accepts (t ++ r) = some ⟨t, r⟩ := by
  rw [longest?, getLast?_filter_inits ha hmax, Option.map_some, List.drop_left]

theorem longest?_eq_none {accepts : List Char → Bool} {cs : List Char}
    (h : ∀ t, t <+: cs → accepts t = false) : longest? accepts cs = none := by
  rw [longest?, filter_inits_eq_nil h]
  rfl

theorem matches_sum {t ds : List Char} :
    t ∈ ((ds.map .char).foldr (· + ·) (0 : RegularExpression Char)).matches' ↔
      ∃ c ∈ ds, t = [c] := by
  induction ds with
  | nil => simp
  | cons d ds ih =>
    rw [List.map_cons, List.foldr_cons, RegularExpression.matches'_add, Language.mem_add, ih,
      List.exists_mem_cons_iff]
    rfl

theorem isDigit_iff {c : Char} : c.isDigit = true ↔ 48 ≤ c.toNat ∧ c.toNat ≤ 57 := by
  simp [Char.isDigit, UInt32.le_iff_toNat_le]

theorem mem_decimals {c : Char} : c ∈ "0123456789".toList ↔ c.isDigit = true := by
  constructor
  · intro h
    have hall : "0123456789".toList.all Char.isDigit = true := by decide +kernel
    exact List.all_eq_true.1 hall c h
  · intro h
    obtain ⟨h0, h9⟩ := isDigit_iff.1 h
    rw [← Char.ofNat_toNat c]
    generalize c.toNat = n at h0 h9
    interval_cases n <;> decide +kernel

theorem mem_digit {t : List Char} : t ∈ digit.matches' ↔ ∃ c, c.isDigit = true ∧ t = [c] := by
  rw [digit, matches_sum]
  simp only [mem_decimals]

theorem mem_digits {t : List Char} : t ∈ digit.star.matches' ↔ t.all Char.isDigit = true := by
  rw [RegularExpression.matches'_star, Language.mem_kstar]
  constructor
  · rintro ⟨ts, rfl, h⟩
    rw [List.all_eq_true]
    intro c hc
    obtain ⟨t, ht, hct⟩ := List.mem_flatten.1 hc
    obtain ⟨d, hd, rfl⟩ := mem_digit.1 (h t ht)
    rw [List.mem_singleton.1 hct]
    exact hd
  · intro h
    refine ⟨t.map fun c => [c], ?_, ?_⟩
    · rw [← List.flatMap_def, List.flatMap_singleton']
    · intro u hu
      obtain ⟨c, hc, rfl⟩ := List.mem_map.1 hu
      exact mem_digit.2 ⟨c, List.all_eq_true.1 h c hc, rfl⟩

structure Numeral (minus ints fraction : List Char) : Prop where
  sign : minus = [] ∨ minus = ['-']
  ne_nil : ints ≠ []
  ints : ints.all Char.isDigit = true
  point : fraction = [] ∨ ∃ ds, ds.all Char.isDigit = true ∧ fraction = '.' :: ds

theorem rmatch_numeral {t : List Char} : numeral.rmatch t = true ↔
    ∃ minus ints fraction, Numeral minus ints fraction ∧ t = minus ++ (ints ++ fraction) := by
  rw [RegularExpression.rmatch_iff_matches']
  simp only [numeral, RegularExpression.matches'_mul, RegularExpression.matches'_add,
    Language.mem_mul, Language.mem_add, mem_digits, mem_digit]
  constructor
  · rintro ⟨minus, hm, -, ⟨-, ⟨-, ⟨c, hc, rfl⟩, ds, hds, rfl⟩, fraction, hf, rfl⟩, rfl⟩
    refine ⟨minus, [c] ++ ds, fraction, ⟨hm, by simp, by simp [hc, hds], ?_⟩, rfl⟩
    rcases hf with hf | ⟨-, rfl, ds, hds, rfl⟩
    · exact .inl hf
    · exact .inr ⟨ds, hds, rfl⟩
  · rintro ⟨minus, ints, fraction, ⟨hm, hne, hi, hf⟩, rfl⟩
    obtain ⟨c, ds, rfl⟩ := List.exists_cons_of_ne_nil hne
    rw [List.all_cons, Bool.and_eq_true] at hi
    refine ⟨minus, hm, _, ⟨c :: ds, ⟨[c], ⟨c, hi.1, rfl⟩, ds, hi.2, rfl⟩, fraction, ?_, rfl⟩, rfl⟩
    rcases hf with hf | ⟨ds, hds, rfl⟩
    · exact .inl hf
    · exact .inr ⟨['.'], rfl, ds, hds, rfl⟩

theorem splitMinus_numeral {minus ints fraction : List Char} (h : Numeral minus ints fraction)
    (rest : List Char) :
    Pattern.splitMinus (minus ++ (ints ++ rest)) = (minus, ints ++ rest) := by
  obtain ⟨c, ds, rfl⟩ := List.exists_cons_of_ne_nil h.ne_nil
  rcases h.sign with rfl | rfl
  · have hc : c ≠ '-' := by
      rintro rfl
      exact absurd h.ints (by simp)
    unfold Pattern.splitMinus
    split
    · rename_i cs heq
      exact absurd (List.cons.inj heq).1 hc
    · rfl
  · rfl

/-- No numeral at the head of a text is longer than what the pattern takes. -/
theorem length_le_of_numeral {minus ints fraction : List Char} (h : Numeral minus ints fraction)
    (rest : List Char) :
    (ints ++ fraction).length ≤
      ((ints ++ (fraction ++ rest)).takeWhile Char.isDigit ++
        (Pattern.splitPoint ((ints ++ (fraction ++ rest)).dropWhile Char.isDigit)).1).length := by
  have hi := List.all_eq_true.1 h.ints
  rw [List.takeWhile_append_of_pos hi, List.dropWhile_append_of_pos hi]
  rcases h.point with rfl | ⟨ds, hds, rfl⟩
  · simp only [List.length_append, List.length_nil]
    omega
  · have hd := List.all_eq_true.1 hds
    have htake : ('.' :: (ds ++ rest)).takeWhile Char.isDigit = [] := by simp
    have hdrop : ('.' :: (ds ++ rest)).dropWhile Char.isDigit = '.' :: (ds ++ rest) := by simp
    rw [List.cons_append, htake, hdrop, Pattern.splitPoint, List.takeWhile_append_of_pos hd]
    simp only [List.length_append, List.length_cons, List.length_nil]
    omega

theorem splitMinus_eq (cs : List Char) :
    cs = (Pattern.splitMinus cs).1 ++ (Pattern.splitMinus cs).2 ∧
      ((Pattern.splitMinus cs).1 = [] ∨ (Pattern.splitMinus cs).1 = ['-']) := by
  unfold Pattern.splitMinus
  split
  · exact ⟨rfl, .inr rfl⟩
  · exact ⟨rfl, .inl rfl⟩

theorem splitPoint_eq (cs : List Char) :
    cs = (Pattern.splitPoint cs).1 ++ (Pattern.splitPoint cs).2 ∧
      ((Pattern.splitPoint cs).1 = [] ∨
        ∃ ds, ds.all Char.isDigit = true ∧ (Pattern.splitPoint cs).1 = '.' :: ds) := by
  unfold Pattern.splitPoint
  split
  · rename_i cs
    refine ⟨?_, .inr ⟨cs.takeWhile Char.isDigit, List.all_takeWhile, rfl⟩⟩
    rw [List.cons_append, List.takeWhile_append_dropWhile]
  · exact ⟨rfl, .inl rfl⟩

theorem exists_numeral_of_rmatch {cs u : List Char} (hu : u <+: cs)
    (hacc : numeral.rmatch u = true) :
    ∃ ints fraction rest, Numeral (Pattern.splitMinus cs).1 ints fraction ∧
      u = (Pattern.splitMinus cs).1 ++ (ints ++ fraction) ∧
      (Pattern.splitMinus cs).2 = ints ++ (fraction ++ rest) := by
  obtain ⟨rest, rfl⟩ := hu
  obtain ⟨minus, ints, fraction, h, rfl⟩ := rmatch_numeral.1 hacc
  rw [List.append_assoc, List.append_assoc, splitMinus_numeral h]
  exact ⟨ints, fraction, rest, h, rfl, rfl⟩

theorem match?_numeral (cs : List Char) :
    Pattern.match? .numeral cs = longest? numeral.rmatch cs := by
  obtain ⟨hcs, hsign⟩ := splitMinus_eq cs
  have hlongest := @exists_numeral_of_rmatch cs
  generalize hs : Pattern.splitMinus cs = parts at hcs hsign hlongest
  obtain ⟨minus, unsigned⟩ := parts
  obtain ⟨hrest, hpoint⟩ := splitPoint_eq (unsigned.dropWhile Char.isDigit)
  generalize hf : Pattern.splitPoint (unsigned.dropWhile Char.isDigit) = parts at hrest hpoint
  obtain ⟨fraction, rest⟩ := parts
  dsimp only at hcs hsign hlongest hrest hpoint
  simp only [Pattern.match?, hs, hf]
  split
  · rename_i hnil
    rw [longest?_eq_none]
    intro u hu
    rw [← Bool.not_eq_true]
    intro hacc
    obtain ⟨ints, f, v, h, -, rfl⟩ := hlongest hu hacc
    rw [List.takeWhile_append_of_pos (List.all_eq_true.1 h.ints), List.isEmpty_iff] at hnil
    exact h.ne_nil (List.append_eq_nil_iff.1 hnil).1
  · rename_i hne
    have hsplit : cs = minus ++ unsigned.takeWhile Char.isDigit ++ fraction ++ rest := by
      calc cs = minus ++ (unsigned.takeWhile Char.isDigit ++ unsigned.dropWhile Char.isDigit) := by
            rw [List.takeWhile_append_dropWhile, ← hcs]
        _ = minus ++ unsigned.takeWhile Char.isDigit ++ fraction ++ rest := by
            rw [hrest, List.append_assoc, List.append_assoc]
    rw [hsplit, longest?_eq_some]
    · refine rmatch_numeral.2 ⟨minus, unsigned.takeWhile Char.isDigit, fraction,
        ⟨hsign, ?_, List.all_takeWhile, hpoint⟩, List.append_assoc _ _ _⟩
      simpa using hne
    · rw [← hsplit]
      intro u hu hacc
      obtain ⟨ints, f, v, h, rfl, rfl⟩ := hlongest hu hacc
      have hle := length_le_of_numeral h v
      rw [hf] at hle
      simp only [List.length_append] at hle ⊢
      omega

theorem closing?_eq {quote a : Char} {previous : Option Char}
    (h : previous = some '\\' ↔ a = '\\') (cs : List Char) :
    Pattern.closing? quote previous cs =
      (bodyLength? quote (a :: cs)).map fun n => ⟨cs.take n, cs.drop (n + 1)⟩ := by
  unfold bodyLength?
  induction cs generalizing a previous with
  | nil => rfl
  | cons c cs ih =>
    have hc := @ih c (some c) Option.some_inj
    rw [List.tail_cons] at hc
    rw [Pattern.closing?, List.tail_cons, List.zip_cons_cons, List.findIdx?_cons, hc]
    by_cases hq : c = quote ∧ a ≠ '\\'
    · simp [h, hq]
    · rw [if_neg (by rwa [ne_eq, h]), if_neg (by simpa using hq), Option.map_map, Option.map_map]
      rfl

theorem match?_quoted {quote : Char} (hq : quote ≠ '\\') (cs : List Char) :
    Pattern.match? (.quoted quote) (quote :: cs) =
      (bodyLength? quote (quote :: cs)).map fun n => ⟨cs.take n, cs.drop (n + 1)⟩ := by
  have h : (none : Option Char) = some '\\' ↔ quote = '\\' := by simp [hq]
  simp only [Pattern.match?, if_pos, closing?_eq h]

theorem afterWord?_eq (ws cs : List Char) :
    Pattern.afterWord? ws cs =
      if (cs.take ws.length).map Char.toUpper = ws then some (cs.drop ws.length) else none := by
  induction ws generalizing cs with
  | nil => simp [Pattern.afterWord?]
  | cons w ws ih =>
    cases cs with
    | nil => simp [Pattern.afterWord?]
    | cons c cs =>
      by_cases h : c.toUpper = w <;> simp [Pattern.afterWord?, ih, h]

theorem isWordChar_toUpper (c : Char) : isWordChar c.toUpper = isWordChar c := by
  by_cases h : c.isLower = true
  · have ha : c.isAlpha = true := by simp [Char.isAlpha, h]
    simp [isWordChar, Char.isAlphanum, ha]
  · rw [Char.toUpper_eq_of_not_isLower h]

theorem endsWord_dropWhile (cs : List Char) :
    Pattern.endsWord (cs.dropWhile isWordChar) = true := by
  cases h : cs.dropWhile isWordChar with
  | nil => rfl
  | cons c rest =>
    have hc := List.head_dropWhile_not isWordChar (h ▸ List.cons_ne_nil c rest)
    simp only [h, List.head_cons] at hc
    simp [Pattern.endsWord, hc]

theorem takeWhile_eq_of_endsWord {t r : List Char} (ht : t.all isWordChar = true)
    (hr : Pattern.endsWord r = true) :
    (t ++ r).takeWhile isWordChar = t ∧ (t ++ r).dropWhile isWordChar = r := by
  have ht := List.all_eq_true.1 ht
  rw [List.takeWhile_append_of_pos ht, List.dropWhile_append_of_pos ht]
  cases r with
  | nil => simp
  | cons c r =>
    have hc : isWordChar c = false := by simpa [Pattern.endsWord] using hr
    simp [hc]

theorem match?_word_append {w : String} {t r : List Char} (ht : t.map Char.toUpper = w.toList)
    (hr : Pattern.endsWord r = true) : Pattern.match? (.word w) (t ++ r) = some ⟨t, r⟩ := by
  have hlen : w.length = t.length := by rw [← String.length_toList, ← ht, List.length_map]
  simp only [Pattern.match?, afterWord?_eq, String.length_toList, hlen, List.take_left,
    List.drop_left, ht, hr, if_true]

theorem all_isWordChar_of_toUpper {w : String} {t : List Char}
    (hw : w.toList.all isWordChar = true) (ht : t.map Char.toUpper = w.toList) :
    t.all isWordChar = true := by
  rw [← ht, List.all_map] at hw
  rw [← hw]
  exact congrArg t.all (funext fun c => (isWordChar_toUpper c).symm)

theorem headWord_append {w : String} {t r : List Char} (hw : w.toList.all isWordChar = true)
    (ht : t.map Char.toUpper = w.toList) (hr : Pattern.endsWord r = true) :
    headWord (t ++ r) = w := by
  have hword := all_isWordChar_of_toUpper hw ht
  rw [headWord, (takeWhile_eq_of_endsWord hword hr).1, ht, String.ofList_toList]

/-- A keyword matches if it is the whole word at the head of the text. -/
theorem match?_word {w : String} (hw : w.toList.all isWordChar = true) (cs : List Char) :
    Pattern.match? (.word w) cs =
      if headWord cs = w then some ⟨cs.takeWhile isWordChar, cs.dropWhile isWordChar⟩
      else none := by
  split
  · rename_i h
    have hupper : (cs.takeWhile isWordChar).map Char.toUpper = w.toList := by
      rw [← h, headWord, String.toList_ofList]
    have hmatch := match?_word_append hupper (endsWord_dropWhile cs)
    rwa [List.takeWhile_append_dropWhile] at hmatch
  · rename_i h
    simp only [Pattern.match?, afterWord?_eq, String.length_toList]
    by_cases hupper : (cs.take w.length).map Char.toUpper = w.toList
    · rw [if_pos hupper]
      have hend : ¬ Pattern.endsWord (cs.drop w.length) = true := by
        intro hend
        have hhead := headWord_append hw hupper hend
        rw [List.take_append_drop] at hhead
        exact h hhead
      exact if_neg hend
    · rw [if_neg hupper]

/-- The only pattern that can match at the head of a text. -/
def pattern? : List Char → Option Pattern
  | [] => none
  | c :: cs =>
    if Text.isBlank c then some .blank
    else if c.isAlpha then some (.word (headWord (c :: cs)))
    else if c.isDigit || c == '-' then some .numeral
    else if c == '"' || c == '\'' then some (.quoted c)
    else if c == '@' then some .label
    else none

theorem isAlpha_iff {c : Char} : c.isAlpha = true ↔
    (65 ≤ c.toNat ∧ c.toNat ≤ 90) ∨ (97 ≤ c.toNat ∧ c.toNat ≤ 122) := by
  simp [Char.isAlpha, Char.isUpper, Char.isLower, UInt32.le_iff_toNat_le]

theorem isBlank_of_isAlphanum {c : Char} (h : c.isAlphanum = true) : Text.isBlank c = false := by
  rw [Char.isAlphanum, Bool.or_eq_true, isAlpha_iff, isDigit_iff] at h
  simp only [Text.isBlank, Bool.or_eq_false_iff, Bool.and_eq_false_iff, decide_eq_false_iff_not,
    beq_eq_false_iff_ne]
  omega

theorem isAlpha_of_isDigit {c : Char} (h : c.isDigit = true) : c.isAlpha = false := by
  rw [← Bool.not_eq_true, isAlpha_iff]
  rw [isDigit_iff] at h
  omega

theorem keywords_spelled : ∀ e ∈ Pattern.keywords, e.1.toList.all isWordChar = true ∧
    e.1.toList.head?.any Char.isAlpha = true := by
  decide +kernel

theorem nodup_patterns : (Pattern.table.map Prod.fst).Nodup := by
  decide +kernel

theorem mem_table {p : Pattern} {k : Option TokenKind} : (p, k) ∈ Pattern.table ↔
    (∃ w kind, (w, kind) ∈ Pattern.keywords ∧ p = .word w ∧ k = some kind) ∨
      (p, k) ∈ [(.quoted '"', some .string), (.quoted '\'', some .string),
        (.numeral, some .number), (.label, some .label), (.blank, none)] := by
  rw [Pattern.table, List.mem_append, List.mem_map]
  constructor
  · rintro (⟨⟨w, kind⟩, hw, he⟩ | h)
    · cases he
      exact .inl ⟨w, kind, hw, rfl, rfl⟩
    · exact .inr h
  · rintro (⟨w, kind, hw, rfl, rfl⟩ | h)
    · exact .inl ⟨(w, kind), hw, rfl⟩
    · exact .inr h

theorem pattern?_of_match?_numeral {cs : List Char} {m : Match}
    (h : Pattern.match? .numeral cs = some m) : pattern? cs = some .numeral := by
  cases cs with
  | nil => cases h
  | cons c cs =>
    by_cases hm : c = '-'
    · subst hm
      rfl
    · have hd : c.isDigit = true := by
        by_contra hd
        rw [Bool.not_eq_true] at hd
        have hs : Pattern.splitMinus (c :: cs) = ([], c :: cs) := by
          unfold Pattern.splitMinus
          split
          · rename_i heq
            exact absurd (List.cons.inj heq).1 hm
          · rfl
        simp [Pattern.match?, hs, hd] at h
      have hb : Text.isBlank c = false := isBlank_of_isAlphanum (by simp [Char.isAlphanum, hd])
      simp [pattern?, hb, isAlpha_of_isDigit hd, hd]

theorem pattern?_of_headWord {w : String} {cs : List Char} (h : headWord cs = w)
    (hw : w.toList.head?.any Char.isAlpha = true) : pattern? cs = some (.word w) := by
  have hupper : w.toList = (cs.takeWhile isWordChar).map Char.toUpper := by
    rw [← h, headWord, String.toList_ofList]
  cases cs with
  | nil =>
    rw [hupper] at hw
    cases hw
  | cons c cs =>
    have hc : c.isAlpha = true := by
      rw [hupper, List.takeWhile_cons] at hw
      split at hw
      · simpa using hw
      · cases hw
    have hb : Text.isBlank c = false := isBlank_of_isAlphanum (by simp [Char.isAlphanum, hc])
    simp [pattern?, hb, hc, h]

theorem head_of_match?_quoted {quote : Char} {cs : List Char} {m : Match}
    (h : Pattern.match? (.quoted quote) cs = some m) : ∃ body, cs = quote :: body := by
  cases cs with
  | nil => cases h
  | cons c cs =>
    simp only [Pattern.match?] at h
    split at h
    · rename_i hc
      exact ⟨cs, by rw [hc]⟩
    · cases h

/-- The head of a text determines the only pattern of the table that can match there. -/
theorem pattern?_of_match? {p : Pattern} {k : Option TokenKind} {cs : List Char} {m : Match}
    (he : (p, k) ∈ Pattern.table) (h : p.match? cs = some m) : pattern? cs = some p := by
  rcases mem_table.1 he with ⟨w, kind, hw, rfl, rfl⟩ | hrest
  · obtain ⟨hchars, hhead⟩ := keywords_spelled (w, kind) hw
    rw [match?_word hchars] at h
    split at h
    · rename_i heq
      exact pattern?_of_headWord heq hhead
    · cases h
  · simp only [List.mem_cons, List.not_mem_nil, or_false, Prod.mk.injEq] at hrest
    rcases hrest with ⟨rfl, rfl⟩ | ⟨rfl, rfl⟩ | ⟨rfl, rfl⟩ | ⟨rfl, rfl⟩ | ⟨rfl, rfl⟩
    · obtain ⟨body, rfl⟩ := head_of_match?_quoted h
      rfl
    · obtain ⟨body, rfl⟩ := head_of_match?_quoted h
      rfl
    · exact pattern?_of_match?_numeral h
    · unfold Pattern.match? at h
      dsimp only at h
      split at h
      · rfl
      · cases h
    · cases cs with
      | nil => cases h
      | cons c cs =>
        simp only [Pattern.match?] at h
        split at h
        · rename_i hc
          rw [pattern?, if_pos hc]
        · cases h

theorem lookup_eq_some_iff_mem {α β : Type} [BEq α] [LawfulBEq α] {l : List (α × β)}
    (hl : (l.map Prod.fst).Nodup) {a : α} {b : β} : l.lookup a = some b ↔ (a, b) ∈ l := by
  induction l with
  | nil => simp
  | cons e l ih =>
    obtain ⟨a', b'⟩ := e
    rw [List.map_cons, List.nodup_cons] at hl
    rw [List.lookup_cons, List.mem_cons, ← ih hl.2, Prod.mk.injEq]
    cases he : a == a' with
    | true =>
      obtain rfl := eq_of_beq he
      have hnone : l.lookup a = none := by
        rw [List.lookup_eq_none_iff]
        intro e hmem
        rw [bne_iff_ne]
        intro h
        exact hl.1 (List.mem_map.2 ⟨e, hmem, h.symm⟩)
      simp [hnone, eq_comm]
    | false => simp [ne_of_beq_false he]

theorem lookup_word (w : String) :
    Pattern.table.lookup (.word w) = (Pattern.keywords.lookup w).map some := by
  have hrest : [(Pattern.quoted '"', some TokenKind.string), (.quoted '\'', some .string),
      (.numeral, some .number), (.label, some .label), (.blank, none)].lookup (.word w) = none :=
    rfl
  rw [Pattern.table, List.lookup_append, hrest, Option.or_none]
  induction Pattern.keywords with
  | nil => rfl
  | cons e words ih =>
    obtain ⟨spelling, kind⟩ := e
    rw [List.map_cons, List.lookup_cons, List.lookup_cons, ih]
    by_cases h : w = spelling
    · simp [h]
    · have hw : (w == spelling) = false := by simpa using h
      have hp : (Pattern.word w == Pattern.word spelling) = false := by simpa using h
      rw [hw, hp]

theorem match?_minus {cs : List Char} (h : cs.head?.any Char.isDigit = false) :
    Pattern.match? .numeral ('-' :: cs) = none := by
  have hnil : cs.takeWhile Char.isDigit = [] := by
    cases cs with
    | nil => rfl
    | cons c cs => simpa using h
  simp [Pattern.match?, Pattern.splitMinus, hnil]

theorem all_headWord (cs : List Char) : (headWord cs).toList.all isWordChar = true := by
  rw [headWord, String.toList_ofList, List.all_map,
    show isWordChar ∘ Char.toUpper = isWordChar from funext isWordChar_toUpper]
  exact List.all_takeWhile

theorem match?_label (cs : List Char) :
    Pattern.match? .label ('@' :: cs) =
      if cs.takeWhile isWordChar ≠ [] ∧ (cs.dropWhile isWordChar).all Text.isBlank then
        some ⟨'@' :: cs.takeWhile isWordChar, []⟩
      else none := by
  simp only [Pattern.match?]
  by_cases hname : cs.takeWhile isWordChar = []
  · simp [hname]
  · cases hblank : (cs.dropWhile isWordChar).all Text.isBlank <;> simp [hname]

/-- The longest token at the head of a text is what the only pattern for it finds. -/
theorem token?_eq (cs : List Char) :
    token? cs = (pattern? cs).bind fun p => (Pattern.table.lookup p).bind fun kind =>
      (p.match? cs).map fun m => (kind, m) := by
  have hblank : Pattern.table.lookup .blank = some none := by decide +kernel
  have hnumeral : Pattern.table.lookup .numeral = some (some .number) := by decide +kernel
  have hlabel : Pattern.table.lookup .label = some (some .label) := by decide +kernel
  have hdouble : Pattern.table.lookup (.quoted '"') = some (some .string) := by decide +kernel
  have hsingle : Pattern.table.lookup (.quoted '\'') = some (some .string) := by decide +kernel
  cases cs with
  | nil => rfl
  | cons c cs =>
    by_cases hb : Text.isBlank c = true
    · simp [token?, pattern?, hb, hblank, Pattern.match?]
    by_cases ha : c.isAlpha = true
    · cases hk : Pattern.keywords.lookup (headWord (c :: cs)) <;>
        simp [token?, pattern?, hb, ha, lookup_word, hk, match?_word (all_headWord (c :: cs))]
    by_cases hd : c.isDigit = true
    · simp [token?, pattern?, hb, ha, hd, hnumeral, match?_numeral]
    by_cases hm : c = '-'
    · subst hm
      cases hhead : cs.head?.any Char.isDigit with
      | true => simp [token?, pattern?, hb, ha, hhead, hnumeral, match?_numeral]
      | false => simp [token?, pattern?, hb, ha, hhead, hnumeral, match?_minus hhead]
    by_cases hq : c = '"' ∨ c = '\''
    · have hlookup : Pattern.table.lookup (.quoted c) = some (some .string) := by
        rcases hq with rfl | rfl
        · exact hdouble
        · exact hsingle
      have hne : c ≠ '\\' := by rcases hq with rfl | rfl <;> decide
      simp [token?, pattern?, hb, ha, hd, hm, hq, hlookup, match?_quoted hne, Function.comp_def]
    by_cases hl : c = '@'
    · subst hl
      have hpattern : pattern? ('@' :: cs) = some .label := rfl
      rw [hpattern, Option.bind_some, hlabel, Option.bind_some, match?_label]
      change (if _ then _ else none) = _
      split <;> rfl
    · simp [token?, pattern?, hb, ha, hd, hm, hq, hl]

theorem first?_eq_token? {entries : List (Pattern × Option TokenKind)}
    (hperm : entries.Perm Pattern.table) (cs : List Char) :
    Pattern.first? entries cs = token? cs := by
  rw [token?_eq]
  cases hfirst : Pattern.first? entries cs with
  | some found =>
    obtain ⟨⟨p, kind⟩, hmem, hfound⟩ := List.exists_of_findSome?_eq_some hfirst
    obtain ⟨m, hmatch, rfl⟩ := Option.map_eq_some_iff.1 hfound
    have he : (p, kind) ∈ Pattern.table := hperm.mem_iff.1 hmem
    rw [pattern?_of_match? he hmatch, Option.bind_some,
      (lookup_eq_some_iff_mem nodup_patterns).2 he, Option.bind_some, hmatch]
    rfl
  | none =>
    have hnone := List.findSome?_eq_none_iff.1 hfirst
    symm
    rw [Option.bind_eq_none_iff]
    intro p hp
    rw [Option.bind_eq_none_iff]
    intro kind hkind
    have he : (p, kind) ∈ Pattern.table := (lookup_eq_some_iff_mem nodup_patterns).1 hkind
    exact hnone (p, kind) (hperm.mem_iff.2 he)

theorem length_filter_match?_le (cs : List Char) :
    (Pattern.table.filter fun e => (e.1.match? cs).isSome).length ≤ 1 := by
  have hsame : ∀ p ∈ (Pattern.table.filter fun e => (e.1.match? cs).isSome).map Prod.fst,
      p = (pattern? cs).getD default := by
    intro p hp
    obtain ⟨⟨q, kind⟩, hmem, rfl⟩ := List.mem_map.1 hp
    obtain ⟨he, hsome⟩ := List.mem_filter.1 hmem
    obtain ⟨m, hm⟩ := Option.isSome_iff_exists.1 hsome
    rw [pattern?_of_match? he hm]
    rfl
  have hnodup := nodup_patterns.sublist
    ((List.filter_sublist (p := fun e => (e.1.match? cs).isSome)).map Prod.fst)
  rw [List.eq_replicate_of_mem hsame, List.nodup_replicate, List.length_map] at hnodup
  exact hnodup

theorem tokens_cons (c : Char) (cs : List Char) :
    tokens (c :: cs) =
      match token? (c :: cs) with
      | none => .error (c :: cs)
      | some (none, m) => tokens m.rest
      | some (some kind, m) => (tokens m.rest).map ((kind, m.text) :: ·) := by
  rw [tokens, if_neg (List.cons_ne_nil c cs)]
  split <;> simp_all

theorem scanUpTo_eq_tokens {entries : List (Pattern × Option TokenKind)}
    (hperm : entries.Perm Pattern.table) {n : Nat} {cs : List Char} (hn : cs.length ≤ n) :
    Line.scanUpTo entries n cs = tokens cs := by
  induction n generalizing cs with
  | zero =>
    obtain rfl := List.length_eq_zero_iff.1 (Nat.le_zero.1 hn)
    rw [tokens, if_pos rfl, Line.scanUpTo]
  | succ n ih =>
    cases cs with
    | nil => rw [tokens, if_pos rfl, Line.scanUpTo]
    | cons c cs =>
      rw [tokens_cons, Line.scanUpTo, first?_eq_token? hperm]
      cases h : token? (c :: cs) with
      | none => rfl
      | some found =>
        obtain ⟨kind, m⟩ := found
        have hrest : m.rest.length ≤ n := Nat.le_of_lt_succ ((length_rest_lt h).trans_le hn)
        cases kind with
        | none => exact ih hrest
        | some kind => exact congrArg (Except.map _) (ih hrest)

theorem beforeComment_eq (text : List Char) : Line.beforeComment text = beforeSlashes text := by
  unfold beforeSlashes
  induction text using Line.beforeComment.induct with
  | case1 cs => rfl
  | case2 c cs h ih =>
    have hno : ['/', '/'].isPrefixOf (c :: cs) = false := by
      rw [← Bool.not_eq_true, List.isPrefixOf_iff_prefix]
      rintro ⟨rest, heq⟩
      cases heq
      exact h rest rfl rfl
    rw [Line.beforeComment, ih, List.tails_cons, List.findIdx_cons, hno]
    · rfl
    · exact h
  | case3 => rfl

theorem readWith_eq_read {entries : List (Pattern × Option TokenKind)}
    (hperm : entries.Perm Pattern.table) (index : Nat) (text : List Char) :
    Line.readWith entries index text = Line.read index text := by
  have hscan : Line.scan entries = Line.scan Pattern.table := by
    funext cs
    rw [Line.scan, Line.scan, scanUpTo_eq_tokens hperm le_rfl, scanUpTo_eq_tokens (.refl _) le_rfl]
  rw [Line.read, Line.readWith, Line.readWith, hscan]

theorem read_eq_line (index : Nat) (text : List Char) :
    (Line.read index text).mapError (·.inLine index) = line index text := by
  rw [Line.read, Line.readWith, Line.scan, scanUpTo_eq_tokens (.refl _) le_rfl, beforeComment_eq,
    line]
  cases tokens (beforeSlashes text) with
  | error rest => rfl
  | ok found =>
    cases found with
    | nil => rfl
    | cons head operands =>
      dsimp only
      by_cases h : Line.maxOperands < operands.length
      · have h' : 3 < (head :: operands).length := Nat.succ_lt_succ h
        rw [if_pos h, if_pos h']
        rfl
      · have h' : ¬ 3 < (head :: operands).length := fun hlt => h (Nat.lt_of_succ_lt_succ hlt)
        rw [if_neg h, if_neg h']
        rfl

end Munch

/-- Reading a line by the table of patterns is reading its longest tokens: at most one entry matches
at the head of any text, so the order of the table does not matter. -/
theorem read_eq_maximal_munch :
    (∀ index text, (Line.read index text).mapError (·.inLine index) = Munch.line index text) ∧
    (∀ cs, (Pattern.table.filter fun e => (e.1.match? cs).isSome).length ≤ 1) ∧
    (∀ entries : List (Pattern × Option TokenKind), entries.Perm Pattern.table →
      ∀ index text, Line.readWith entries index text = Line.read index text) := by
  refine ⟨Munch.read_eq_line, Munch.length_filter_match?_le, ?_⟩
  intro entries hperm index text
  exact Munch.readWith_eq_read hperm index text

/-- In the reversed table `MOVE` comes before `MOV`, which it extends. -/
theorem read_eq_maximal_munch_reversed :
    let text := "move -1.5 @go_on // jump".toList
    let line : Line :=
      ⟨⟨.opcode .move, "MOVE", 4⟩, [⟨.number, "-1.5", 4⟩, ⟨.label, "@GO_ON", 4⟩]⟩
    Munch.line 4 text = .ok line ∧ Pattern.table.reverse.Perm Pattern.table ∧
      Line.readWith Pattern.table.reverse 4 text = .ok line ∧
      ∀ index text, Line.readWith Pattern.table.reverse index text = Line.read index text := by
  intro text line
  obtain ⟨hmunch, -, hany⟩ := read_eq_maximal_munch
  have hread : Line.read 4 text = .ok line := by decide +kernel
  have hreversed := hany _ (List.reverse_perm _)
  refine ⟨?_, List.reverse_perm _, (hreversed 4 text).trans hread, hreversed⟩
  rw [← hmunch, hread]
  rfl

end LineAsm
