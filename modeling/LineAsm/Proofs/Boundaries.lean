import LineAsm.Proofs.LeadingNumbers
import LineAsm.Proofs.Rendering

set_option autoImplicit false

/-!
# Matches end between characters

A pattern can also be matched by positions in the UTF-8 bytes of a text: `Bytes.match?` gives the
number of bytes that a match takes, and has no answer where the text would be cut past its end or
inside a character. Keywords, numerals and names are ASCII, so that there bytes and characters count
alike; quoted texts are not, and their bytes are counted. Every entry of the table has an answer on
every text, a match takes at least one byte, and it takes whole characters. So a scan that cuts off
as many bytes as each match takes comes to an end, and what it has cut off is all of the text that
it has passed over.
-/

namespace LineAsm

/-- What a pattern takes from a text, and which part of that is the text of the token. -/
inductive Pattern.Shows : Pattern → List Char → List Char → Prop where
  | word {w : String} {t : List Char} : Shows (.word w) t t
  | quoted {quote : Char} {t : List Char} : Shows (.quoted quote) (quote :: (t ++ [quote])) t
  | numeral {t : List Char} : Shows .numeral t t
  | label {name blanks : List Char} (hne : name ≠ []) (hname : name.all isWordChar = true)
      (hblanks : blanks.all Text.isBlank = true) :
      Shows .label ('@' :: (name ++ blanks)) ('@' :: name)
  | blank {c : Char} (hc : Text.isBlank c = true) : Shows .blank [c] []

namespace Bytes

/-- A match measured in bytes: how many it takes, and the text of the token. -/
structure Measured where
  length : Nat
  text : List Char
deriving DecidableEq

def word? (w : String) (cs : List Char) : Option (Option Measured) :=
  let size := (Text.bytes w.toList).length
  -- a text that cannot be cut at the length of the word does not start with it
  match Text.splitAtByte? size cs with
  | none => some none
  | some (head, after) =>
    some (if head.map Char.toUpper = w.toList ∧ Pattern.endsWord after then some ⟨size, head⟩
      else none)

/-- The position of the first quote that no backslash precedes. -/
def closingAt? (quote : Char) (previous : Option Char) (position : Nat) : List Char → Option Nat
  | [] => none
  | c :: cs =>
    if c = quote ∧ previous ≠ some '\\' then some position
    else closingAt? quote (some c) (position + c.utf8Size) cs

def quoted? (quote : Char) (cs : List Char) : Option (Option Measured) :=
  match cs with
  | [] => some none
  | c :: body =>
    if c = quote then
      match closingAt? quote none 0 body with
      | none => some none
      | some i =>
        (Text.splitAtByte? i body).map fun (text, _) => some ⟨i + 2 * quote.utf8Size, text⟩
    else some none

def afterMinus (bs : List UInt8) : Nat := if hasAt bs 0 '-' then 1 else 0

def afterPoint (bs : List UInt8) (i : Nat) : Option Nat :=
  if hasAt bs i '.' then (digitsFrom bs (i + 1)).map (i + 1 + ·) else some i

def numeral? (cs : List Char) : Option (Option Measured) := do
  let bs := Text.bytes cs
  let start := afterMinus bs
  let ints ← digitsFrom bs start
  if ints = 0 then return none
  let stop ← afterPoint bs (start + ints)
  let (numeral, _) ← Text.splitAtByte? stop cs
  return some ⟨stop, numeral⟩

/-- The characters of the name are counted, and the count is taken for a position. -/
def label? (cs : List Char) : Option (Option Measured) :=
  match cs with
  | '@' :: after => do
    let count := (after.takeWhile isWordChar).length
    let (_, blanks) ← Text.splitAtByte? count after
    if count = 0 ∨ ¬ blanks.all Text.isBlank then return none
    let (name, _) ← Text.splitAtByte? (count + 1) cs
    return some ⟨(Text.bytes cs).length, name⟩
  | _ => some none

def blank? (cs : List Char) : Option (Option Measured) :=
  match cs with
  | c :: _ => some (if Text.isBlank c then some ⟨c.utf8Size, []⟩ else none)
  | [] => some none

/-- What a pattern finds by positions; no answer if one of them is out of bounds or inside a
character. -/
def match? : Pattern → List Char → Option (Option Measured)
  | .word w => word? w
  | .quoted quote => quoted? quote
  | .numeral => numeral?
  | .label => label?
  | .blank => blank?

def first? : List (Pattern × Option TokenKind) → List Char →
    Option (Option (Option TokenKind × Measured))
  | [], _ => some none
  | (p, kind) :: entries, cs => do
    match ← match? p cs with
    | some m => return some (kind, m)
    | none => first? entries cs

/-- One turn of a scan: the token if there is one, and what was cut off. -/
structure Turn where
  kind : Option TokenKind
  text : List Char
  taken : List Char

def Turn.token? (t : Turn) : Option (TokenKind × List Char) := t.kind.map fun kind => (kind, t.text)

/-- The turns of a scan that cuts off the bytes of one match after the other, and what is left where
it stops. -/
inductive Scans : List Char → List Turn → List Char → Prop where
  | done : Scans [] [] []
  | stuck {cs : List Char} (hne : cs ≠ []) (h : first? Pattern.table cs = some none) :
      Scans cs [] cs
  | turn {cs taken rest last : List Char} {kind : Option TokenKind} {m : Measured}
      {turns : List Turn} (hne : cs ≠ [])
      (h : first? Pattern.table cs = some (some (kind, m)))
      (hcut : Text.splitAtByte? m.length cs = some (taken, rest)) (hlater : Scans rest turns last) :
      Scans cs (⟨kind, m.text, taken⟩ :: turns) last

end Bytes

/-! ### Cuts -/

namespace Text

theorem length_bytes_cons (c : Char) (cs : List Char) :
    (bytes (c :: cs)).length = c.utf8Size + (bytes cs).length := by
  rw [bytes_cons, List.length_append, String.length_utf8EncodeChar]

theorem length_bytes_append (xs ys : List Char) :
    (bytes (xs ++ ys)).length = (bytes xs).length + (bytes ys).length := by
  rw [bytes_append, List.length_append]

theorem length_bytes_pos {cs : List Char} (h : cs ≠ []) : 0 < (bytes cs).length := by
  obtain ⟨c, cs, rfl⟩ := List.exists_cons_of_ne_nil h
  have hpos := c.utf8Size_pos
  rw [length_bytes_cons]
  omega

theorem splitAtByte?_length_bytes (t r : List Char) :
    splitAtByte? (bytes t).length (t ++ r) = some (t, r) := by
  induction t with
  | nil =>
    unfold splitAtByte?
    rfl
  | cons c t ih =>
    obtain ⟨n, hn⟩ := Nat.exists_eq_succ_of_ne_zero c.utf8Size_pos.ne'
    rw [length_bytes_cons, hn, Nat.succ_add, List.cons_append, splitAtByte?, hn, if_pos (by omega),
      show n + (bytes t).length + 1 - n.succ = (bytes t).length by omega, ih]
    rfl

theorem splitAtByte?_eq_some {n : Nat} {cs before after : List Char}
    (h : splitAtByte? n cs = some (before, after)) :
    cs = before ++ after ∧ n = (bytes before).length := by
  fun_induction splitAtByte? n cs generalizing before with
  | case1 cs =>
    cases h
    exact ⟨rfl, rfl⟩
  | case2 => cases h
  | case3 n c cs hle ih =>
    obtain ⟨⟨t, r⟩, hrest, heq⟩ := Option.map_eq_some_iff.1 h
    cases heq
    obtain ⟨rfl, hn⟩ := ih hrest
    refine ⟨rfl, ?_⟩
    rw [length_bytes_cons]
    omega
  | case4 => cases h

theorem isAscii_of_isWordChar {c : Char} (h : isWordChar c = true) : isAscii c = true := by
  rw [isWordChar, Bool.or_eq_true, beq_iff_eq] at h
  rcases h with h | rfl
  · rw [Char.isAlphanum, Bool.or_eq_true, Munch.isAlpha_iff, Munch.isDigit_iff] at h
    exact decide_eq_true (by omega)
  · decide

end Text

theorem all_isAscii_of_all_isWordChar {cs : List Char} (h : cs.all isWordChar = true) :
    cs.all Text.isAscii = true :=
  List.all_eq_true.2 fun c hc => Text.isAscii_of_isWordChar (List.all_eq_true.1 h c hc)

namespace Bytes

/-- A match of the table of patterns, measured in the bytes of the text. -/
def measured (cs : List Char) (m : Match) : Measured :=
  ⟨(Text.bytes cs).length - (Text.bytes m.rest).length, m.text⟩

theorem measured_append (t text r : List Char) :
    measured (t ++ r) ⟨text, r⟩ = ⟨(Text.bytes t).length, text⟩ := by
  rw [measured, Text.length_bytes_append, Nat.add_sub_cancel]

/-! ### Patterns -/

theorem word?_eq {w : String} (hw : w.toList.all isWordChar = true) (cs : List Char) :
    word? w cs = some ((Pattern.match? (.word w) cs).map (measured cs)) := by
  cases hm : Pattern.match? (.word w) cs with
  | some m =>
    cases Pattern.takes_of_match? hm with
    | @word _ t r ht hr =>
      have hsize : (Text.bytes w.toList).length = (Text.bytes t).length := by
        have hascii := all_isAscii_of_all_isWordChar (Munch.all_isWordChar_of_toUpper hw ht)
        rw [Text.length_bytes_of_isAscii (all_isAscii_of_all_isWordChar hw),
          Text.length_bytes_of_isAscii hascii, ← ht, List.length_map]
      rw [word?, hsize, Text.splitAtByte?_length_bytes]
      dsimp only
      rw [if_pos ⟨ht, hr⟩, Option.map_some, measured_append]
  | none =>
    unfold word?
    dsimp only
    split
    · rfl
    · rename_i head after hsplit
      obtain ⟨rfl, -⟩ := Text.splitAtByte?_eq_some hsplit
      rw [if_neg, Option.map_none]
      rintro ⟨ht, hr⟩
      rw [Munch.match?_word_append ht hr] at hm
      cases hm

theorem closingAt?_eq (quote : Char) (previous : Option Char) (position : Nat) (cs : List Char) :
    closingAt? quote previous position cs =
      (Pattern.closing? quote previous cs).map fun m => position + (Text.bytes m.text).length := by
  induction cs generalizing previous position with
  | nil => rfl
  | cons c cs ih =>
    rw [closingAt?, Pattern.closing?, ih]
    split
    · rfl
    · rw [Option.map_map]
      refine congrArg (Option.map · _) (funext fun m => ?_)
      rw [Function.comp_apply, Text.length_bytes_cons, Nat.add_assoc]

theorem quoted?_eq (quote : Char) (cs : List Char) :
    quoted? quote cs = some ((Pattern.match? (.quoted quote) cs).map (measured cs)) := by
  cases cs with
  | nil => rfl
  | cons c body =>
    rw [quoted?, Pattern.match?]
    by_cases hc : c = quote
    · subst hc
      rw [if_pos rfl, if_pos rfl, closingAt?_eq]
      cases hclosing : Pattern.closing? c none body with
      | none => rfl
      | some m =>
        obtain ⟨t, r⟩ := m
        obtain ⟨rfl, -, -⟩ := Pattern.closing?_eq_some hclosing
        have htaken : c :: (t ++ c :: r) = (c :: (t ++ [c])) ++ r := by simp
        have hlength : (Text.bytes (c :: (t ++ [c]))).length =
            (Text.bytes t).length + 2 * c.utf8Size := by
          rw [Text.length_bytes_cons, Text.length_bytes_append, Text.length_bytes_cons]
          simp only [Text.bytes, List.flatMap_nil, List.length_nil]
          omega
        simp only [Option.map_some, Nat.zero_add, Text.splitAtByte?_length_bytes]
        rw [htaken, measured_append, hlength]
    · rw [if_neg hc, if_neg hc]
      rfl

theorem head?_ne_some {c : Char} {cs : List Char} (h : ∀ rest, cs = c :: rest → False) :
    (cs.head? == some c) = false := by
  rw [beq_eq_false_iff_ne]
  intro hhead
  obtain ⟨rest, hrest⟩ := List.head?_eq_some_iff.1 hhead
  exact h rest hrest

theorem afterMinus_eq (cs : List Char) :
    afterMinus (Text.bytes cs) = (Pattern.splitMinus cs).1.length := by
  have hminus := hasAt_append (t := []) rfl cs (show Text.isAscii '-' = true by decide)
  rw [List.nil_append, List.length_nil] at hminus
  rw [afterMinus, hminus]
  fun_cases Pattern.splitMinus cs with
  | case1 rest => rfl
  | case2 _ hno =>
    rw [head?_ne_some hno]
    rfl

theorem afterPoint_append {t : List Char} (ht : t.all Text.isAscii = true) (r : List Char) :
    afterPoint (Text.bytes (t ++ r)) t.length = some (t ++ (Pattern.splitPoint r).1).length := by
  rw [afterPoint, hasAt_append ht r (show Text.isAscii '.' = true by decide)]
  fun_cases Pattern.splitPoint r with
  | case1 cs =>
    have hpoint : (t ++ ['.']).all Text.isAscii = true := by
      rw [List.all_append, ht]
      decide
    have hdigits := digitsFrom_append hpoint cs
    rw [List.append_assoc, List.singleton_append, List.length_append,
      List.length_singleton] at hdigits
    simp only [List.head?_cons, beq_self_eq_true, if_true, hdigits, Option.map_some,
      List.length_append, List.length_cons]
    congr 1
    omega
  | case2 _ hno =>
    rw [head?_ne_some hno, List.append_nil]
    rfl

theorem numeral?_eq (cs : List Char) :
    numeral? cs = some ((Pattern.match? .numeral cs).map (measured cs)) := by
  obtain ⟨hcs, hsign⟩ := Munch.splitMinus_eq cs
  have hstart := afterMinus_eq cs
  rw [numeral?, Pattern.match?]
  generalize Pattern.splitMinus cs = parts at hcs hsign hstart ⊢
  obtain ⟨minus, unsigned⟩ := parts
  dsimp only at hcs hsign hstart ⊢
  subst hcs
  have hminus : minus.all Text.isAscii = true := by
    rcases hsign with rfl | rfl <;> decide
  have hints := digitsFrom_append hminus unsigned
  have hall : (unsigned.takeWhile Char.isDigit).all Text.isAscii = true :=
    all_isAscii_of_all_isDigit List.all_takeWhile
  have hunsigned := (List.takeWhile_append_dropWhile (p := Char.isDigit) (l := unsigned)).symm
  generalize unsigned.takeWhile Char.isDigit = ints at hints hall hunsigned ⊢
  generalize unsigned.dropWhile Char.isDigit = after at hunsigned ⊢
  subst hunsigned
  have hascii : (minus ++ ints).all Text.isAscii = true := by
    rw [List.all_append, hminus, hall]
    rfl
  have hstop := afterPoint_append hascii after
  rw [List.append_assoc, List.length_append] at hstop
  obtain ⟨hafter, hpoint⟩ := Munch.splitPoint_eq after
  simp only [hstart, hints, hstop, Option.bind_eq_bind, Option.bind_some, List.length_eq_zero_iff,
    List.isEmpty_iff]
  generalize Pattern.splitPoint after = parts at hafter hpoint ⊢
  obtain ⟨fraction, rest⟩ := parts
  dsimp only at hafter hpoint ⊢
  subst hafter
  by_cases hnil : ints = []
  · rw [if_pos hnil, if_pos hnil]
    rfl
  · have hfraction : fraction.all Text.isAscii = true := by
      rcases hpoint with rfl | ⟨ds, hds, rfl⟩
      · rfl
      · rw [List.all_cons, all_isAscii_of_all_isDigit hds]
        decide
    have hnumeral : (minus ++ ints ++ fraction).all Text.isAscii = true := by
      rw [List.all_append, hascii, hfraction]
      rfl
    have hcut := Text.splitAtByte?_append hnumeral rest
    have hmeasured := measured_append (minus ++ ints ++ fraction) (minus ++ ints ++ fraction) rest
    rw [Text.length_bytes_of_isAscii hnumeral] at hmeasured
    simp only [List.append_assoc] at hcut hmeasured ⊢
    rw [if_neg hnil, if_neg hnil, hcut, Option.map_some, hmeasured]
    rfl

theorem label?_eq (cs : List Char) :
    label? cs = some ((Pattern.match? .label cs).map (measured cs)) := by
  unfold label?
  split
  · rename_i after
    have hname : (after.takeWhile isWordChar).all Text.isAscii = true :=
      all_isAscii_of_all_isWordChar List.all_takeWhile
    have hafter := (List.takeWhile_append_dropWhile (p := isWordChar) (l := after)).symm
    rw [Munch.match?_label]
    generalize after.takeWhile isWordChar = name at hname hafter ⊢
    generalize after.dropWhile isWordChar = blanks at hafter ⊢
    subst hafter
    have hlabel : ('@' :: name).all Text.isAscii = true := by
      rw [List.all_cons, hname]
      decide
    have hcut := Text.splitAtByte?_append hlabel blanks
    rw [List.length_cons, List.cons_append] at hcut
    simp only [Text.splitAtByte?_append hname, Option.bind_eq_bind, Option.bind_some,
      List.length_eq_zero_iff]
    by_cases h : name ≠ [] ∧ blanks.all Text.isBlank = true
    · have hno : ¬ (name = [] ∨ ¬ blanks.all Text.isBlank = true) := by
        rintro (hnil | hblanks)
        · exact h.1 hnil
        · exact hblanks h.2
      rw [if_neg hno, if_pos h, hcut]
      rfl
    · have hyes : name = [] ∨ ¬ blanks.all Text.isBlank = true := by
        by_contra hno
        rw [not_or, not_not] at hno
        exact h hno
      rw [if_pos hyes, if_neg h]
      rfl
  · rename_i hno
    have hmatch : Pattern.match? .label cs = none := by
      unfold Pattern.match?
      dsimp only
      split
      · rename_i after
        exact absurd rfl (hno after)
      · rfl
    rw [hmatch]
    rfl

theorem blank?_eq (cs : List Char) :
    blank? cs = some ((Pattern.match? .blank cs).map (measured cs)) := by
  cases cs with
  | nil => rfl
  | cons c rest =>
    rw [blank?, Pattern.match?]
    split
    · have hmeasured := measured_append [c] [] rest
      rw [Text.length_bytes_cons] at hmeasured
      rw [Option.map_some, ← List.singleton_append, hmeasured]
      rfl
    · rfl

theorem match?_eq {p : Pattern} {kind : Option TokenKind} (he : (p, kind) ∈ Pattern.table)
    (cs : List Char) : match? p cs = some ((p.match? cs).map (measured cs)) := by
  cases p with
  | word w =>
    rcases Munch.mem_table.1 he with ⟨w', k, hw, heq, -⟩ | hrest
    · obtain rfl := Pattern.word.inj heq
      exact word?_eq (Munch.keywords_spelled _ hw).1 cs
    · simp at hrest
  | quoted quote => exact quoted?_eq quote cs
  | numeral => exact numeral?_eq cs
  | label => exact label?_eq cs
  | blank => exact blank?_eq cs

end Bytes

namespace Pattern

theorem Shows.part {p : Pattern} {taken text : List Char} (h : p.Shows taken text) :
    text <:+: taken := by
  cases h with
  | word | numeral => exact List.infix_rfl
  | @quoted quote => exact ⟨[quote], [quote], rfl⟩
  | @label name blanks => exact ⟨[], blanks, rfl⟩
  | blank => exact List.nil_infix

theorem Takes.exists_shows {p : Pattern} {kind : Option TokenKind} {cs : List Char} {m : Match}
    (he : (p, kind) ∈ table) (h : p.Takes cs m) :
    ∃ taken, cs = taken ++ m.rest ∧ taken ≠ [] ∧ p.Shows taken m.text := by
  cases h with
  | @word w t r ht hr =>
    refine ⟨t, rfl, ?_, .word⟩
    rintro rfl
    rcases Munch.mem_table.1 he with ⟨w', k, hw, heq, -⟩ | hrest
    · obtain rfl := Pattern.word.inj heq
      have hhead := (Munch.keywords_spelled _ hw).2
      rw [← ht] at hhead
      cases hhead
    · simp at hrest
  | @quoted quote t r ht hlast =>
    exact ⟨quote :: (t ++ [quote]), by simp, List.cons_ne_nil _ _, .quoted⟩
  | @numeral t r ht =>
    refine ⟨t, rfl, ?_, .numeral⟩
    rintro rfl
    exact absurd ht (by decide +kernel)
  | @label name r hne hname hr =>
    exact ⟨_, (List.append_nil _).symm, List.cons_ne_nil _ _, .label hne hname hr⟩
  | @blank c r hc => exact ⟨[c], rfl, List.cons_ne_nil _ _, .blank hc⟩

end Pattern

/-! ### Scans -/

namespace Bytes

theorem first?_eq {entries : List (Pattern × Option TokenKind)}
    (h : ∀ e ∈ entries, e ∈ Pattern.table) (cs : List Char) :
    first? entries cs =
      some ((Pattern.first? entries cs).map fun x => (x.1, measured cs x.2)) := by
  induction entries with
  | nil => rfl
  | cons e entries ih =>
    obtain ⟨p, kind⟩ := e
    rw [List.forall_mem_cons] at h
    rw [first?, match?_eq h.1, ih h.2]
    simp only [Pattern.first?, List.findSome?_cons]
    cases p.match? cs <;> rfl

theorem first?_table (cs : List Char) :
    first? Pattern.table cs =
      some ((Munch.token? cs).map fun x => (x.1, measured cs x.2)) := by
  rw [first?_eq fun _ he => he, Munch.first?_eq_token? (.refl _)]

theorem exists_cut {cs : List Char} {kind : Option TokenKind} {m : Match}
    (h : Munch.token? cs = some (kind, m)) :
    ∃ taken, taken ≠ [] ∧ Text.splitAtByte? (measured cs m).length cs = some (taken, m.rest) := by
  rw [← Munch.first?_eq_token? (.refl _)] at h
  obtain ⟨p, he, htakes⟩ := Pattern.exists_takes_of_first? h
  obtain ⟨taken, rfl, hne, -⟩ := htakes.exists_shows he
  exact ⟨taken, hne, by rw [measured_append, Text.splitAtByte?_length_bytes]⟩

theorem exists_scans (cs : List Char) : ∃ turns rest, Scans cs turns rest := by
  induction hn : cs.length using Nat.strong_induction_on generalizing cs with
  | _ n ih =>
    subst hn
    by_cases hne : cs = []
    · subst hne
      exact ⟨[], [], .done⟩
    · cases htoken : Munch.token? cs with
      | none => exact ⟨[], cs, .stuck hne (by rw [first?_table, htoken]; rfl)⟩
      | some x =>
        obtain ⟨kind, m⟩ := x
        obtain ⟨taken, -, hcut⟩ := exists_cut htoken
        obtain ⟨turns, rest, hlater⟩ := ih _ (Munch.length_rest_lt htoken) m.rest rfl
        exact ⟨_, rest, .turn hne (by rw [first?_table, htoken]; rfl) hcut hlater⟩

namespace Scans

variable {cs rest : List Char} {turns : List Turn}

theorem unique (h : Scans cs turns rest) {turns' : List Turn} {rest' : List Char}
    (h' : Scans cs turns' rest') : turns' = turns ∧ rest' = rest := by
  induction h generalizing turns' rest' with
  | done =>
    cases h' with
    | done => exact ⟨rfl, rfl⟩
    | stuck hne _ | turn hne _ _ _ => exact absurd rfl hne
  | stuck hne hfirst =>
    cases h' with
    | done => exact absurd rfl hne
    | stuck _ _ => exact ⟨rfl, rfl⟩
    | turn _ hfirst' _ _ =>
      rw [hfirst] at hfirst'
      cases hfirst'
  | turn hne hfirst hcut _ ih =>
    cases h' with
    | done => exact absurd rfl hne
    | stuck _ hfirst' =>
      rw [hfirst] at hfirst'
      cases hfirst'
    | turn _ hfirst' hcut' hlater' =>
      rw [hfirst] at hfirst'
      cases hfirst'
      rw [hcut] at hcut'
      cases hcut'
      obtain ⟨rfl, rfl⟩ := ih hlater'
      exact ⟨rfl, rfl⟩

theorem flatten_taken (h : Scans cs turns rest) :
    (turns.map Turn.taken).flatten ++ rest = cs := by
  induction h with
  | done => rfl
  | stuck => rfl
  | turn _ _ hcut _ ih =>
    rw [List.map_cons, List.flatten_cons, List.append_assoc, ih, (Text.splitAtByte?_eq_some hcut).1]

theorem taken_ne_nil (h : Scans cs turns rest) : ∀ t ∈ turns, t.taken ≠ [] := by
  induction h with
  | done => simp
  | stuck => simp
  | turn _ hfirst hcut _ ih =>
    rw [first?_table, Option.some.injEq, Option.map_eq_some_iff] at hfirst
    obtain ⟨⟨kind, m⟩, htoken, heq⟩ := hfirst
    cases heq
    obtain ⟨taken, hne, hcut'⟩ := exists_cut htoken
    cases hcut'.symm.trans hcut
    exact List.forall_mem_cons.2 ⟨hne, ih⟩

theorem scan_eq (h : Scans cs turns rest) :
    Line.scan Pattern.table cs =
      if rest = [] then .ok (turns.filterMap Turn.token?) else .error rest := by
  rw [Line.scan_eq_tokens]
  induction h with
  | done => rw [Munch.tokens, if_pos rfl, if_pos rfl]; rfl
  | @stuck cs hne hfirst =>
    rw [first?_table, Option.some.injEq, Option.map_eq_none_iff] at hfirst
    obtain ⟨c, cs, rfl⟩ := List.exists_cons_of_ne_nil hne
    rw [Munch.tokens_cons, hfirst, if_neg hne]
  | @turn cs taken rest last kind m turns hne hfirst hcut _ ih =>
    rw [first?_table, Option.some.injEq, Option.map_eq_some_iff] at hfirst
    obtain ⟨⟨kind, m⟩, htoken, heq⟩ := hfirst
    cases heq
    obtain ⟨taken, -, hcut'⟩ := exists_cut htoken
    cases hcut'.symm.trans hcut
    obtain ⟨c, cs, rfl⟩ := List.exists_cons_of_ne_nil hne
    rw [Munch.tokens_cons, htoken]
    cases kind with
    | none =>
      dsimp only
      rw [ih]
      rfl
    | some kind =>
      dsimp only
      rw [ih]
      split <;> rfl

end Scans

end Bytes

/-- Each entry of the table that matches a text takes a number of bytes that is positive, no more
than the text has, and the length of some whole characters at its start; the text of the token is
the part of them that its pattern shows. So a scan that goes on behind each match comes to an end on
every text, in one way only and without a cut inside a character; all that stands before the comment
is cut off match by match, up to the rest that no entry matches. -/
theorem matches_end_between_characters :
    (∀ p kind, (p, kind) ∈ Pattern.table → ∀ cs,
      (Bytes.match? p cs = some none ∧ p.match? cs = none) ∨
      ∃ length taken rest text, Bytes.match? p cs = some (some ⟨length, text⟩) ∧
        p.match? cs = some ⟨text, rest⟩ ∧ 0 < length ∧ length ≤ (Text.bytes cs).length ∧
        cs = taken ++ rest ∧ length = (Text.bytes taken).length ∧ p.Shows taken text ∧
        text <:+: taken) ∧
    ∀ text, ∃ turns rest, Bytes.Scans (Munch.beforeSlashes text) turns rest ∧
      (∀ turns' rest', Bytes.Scans (Munch.beforeSlashes text) turns' rest' →
        turns' = turns ∧ rest' = rest) ∧
      (turns.map Bytes.Turn.taken).flatten ++ rest = Munch.beforeSlashes text ∧
      (∀ t ∈ turns, t.taken ≠ []) ∧
      Line.scan Pattern.table (Line.beforeComment text) =
        if rest = [] then .ok (turns.filterMap Bytes.Turn.token?) else .error rest := by
  refine ⟨?_, ?_⟩
  · intro p kind he cs
    rw [Bytes.match?_eq he]
    cases hm : p.match? cs with
    | none => exact .inl ⟨rfl, rfl⟩
    | some m =>
      obtain ⟨taken, rfl, hne, hshows⟩ := (Pattern.takes_of_match? hm).exists_shows he
      obtain ⟨text, rest⟩ := m
      refine .inr ⟨(Text.bytes taken).length, taken, rest, text, ?_, rfl, Text.length_bytes_pos hne,
        ?_, rfl, rfl, hshows, hshows.part⟩
      · rw [Option.map_some, Bytes.measured_append]
      · rw [Text.length_bytes_append]
        exact Nat.le_add_right _ _
  · intro text
    obtain ⟨turns, rest, h⟩ := Bytes.exists_scans (Munch.beforeSlashes text)
    refine ⟨turns, rest, h, fun _ _ => h.unique, h.flatten_taken, h.taken_ne_nil, ?_⟩
    rw [Munch.beforeComment_eq]
    exact h.scan_eq

/-- Six characters with the quotes, and nine bytes: the accented letter has two, the last character
before the closing quote three. -/
theorem matches_end_between_characters_quoted :
    let p := Pattern.quoted '\''
    let cs := "'é\\'€' r0".toList
    (p, some .string) ∈ Pattern.table ∧
    ∃ length taken rest text, Bytes.match? p cs = some (some ⟨length, text⟩) ∧ length = 9 ∧
      cs = taken ++ rest ∧ length = (Text.bytes taken).length ∧ p.Shows taken text ∧
      text = "é\\'€".toList := by
  intro p cs
  have he : (p, some .string) ∈ Pattern.table := by decide +kernel
  have hmatch : Bytes.match? p cs = some (some ⟨9, "é\\'€".toList⟩) := by decide +kernel
  refine ⟨he, ?_⟩
  rcases matches_end_between_characters.1 p _ he cs with ⟨hnone, -⟩ | hsome
  · rw [hmatch] at hnone
    cases hnone
  · obtain ⟨length, taken, rest, text, hfound, -, -, -, hcs, hlength, hshows, -⟩ := hsome
    have hsame := hmatch.symm.trans hfound
    cases hsame
    exact ⟨9, taken, rest, _, hmatch, rfl, hcs, hlength, hshows, rfl⟩

end LineAsm
