import LineAsm.Proofs.MaximalMunch

set_option autoImplicit false

/-!
# What the patterns take

`Pattern.Takes` says what a match of each pattern tells about the text: what it took, what is left,
and where it stopped. From this follows what the tokens of a line can look like: keywords, numerals
and strings in any order, and a label only at the end, as it takes the rest of the line.
-/

namespace LineAsm

/-- A quote stands in the text that no backslash precedes. -/
def Text.HasBare (quote : Char) (cs : List Char) : Prop :=
  ∃ before after, cs = before ++ quote :: after ∧ before.getLast? ≠ some '\\'

namespace Pattern

/-! ### Closing quotes -/

theorem closing?_append (quote : Char) (previous : Option Char) (xs ys : List Char) :
    closing? quote previous (xs ++ ys) =
      match closing? quote previous xs with
      | some m => some ⟨m.text, m.rest ++ ys⟩
      | none =>
        (closing? quote (xs.getLast?.or previous) ys).map fun m => ⟨xs ++ m.text, m.rest⟩ := by
  induction xs generalizing previous with
  | nil => simp [closing?]
  | cons c xs ih =>
    rw [List.cons_append, closing?, closing?]
    split
    · rfl
    · have hlast : (c :: xs).getLast?.or previous = xs.getLast?.or (some c) := by
        rw [List.getLast?_cons]
        cases xs.getLast? <;> rfl
      rw [ih (some c), hlast]
      cases closing? quote (some c) xs with
      | some m => rfl
      | none =>
        simp only [Option.map_map, Option.map_none]
        rfl

theorem closing?_eq_some {quote : Char} {previous : Option Char} {cs : List Char} {m : Match}
    (h : closing? quote previous cs = some m) :
    cs = m.text ++ quote :: m.rest ∧ m.text.getLast?.or previous ≠ some '\\' ∧
      closing? quote previous m.text = none := by
  induction cs generalizing previous m with
  | nil => cases h
  | cons c cs ih =>
    rw [closing?] at h
    split at h
    · rename_i hc
      cases h
      exact ⟨by rw [hc.1]; rfl, hc.2, rfl⟩
    · rename_i hc
      obtain ⟨n, hn, rfl⟩ := Option.map_eq_some_iff.1 h
      obtain ⟨rfl, hlast, hnone⟩ := ih hn
      refine ⟨rfl, ?_, ?_⟩
      · rw [List.getLast?_cons]
        cases hl : n.text.getLast? <;> simpa [hl] using hlast
      · rw [closing?, if_neg hc, hnone]
        rfl

theorem closing?_eq_none_iff {quote : Char} {cs : List Char} :
    closing? quote none cs = none ↔ ¬ Text.HasBare quote cs := by
  constructor
  · rintro h ⟨before, after, rfl, hlast⟩
    rw [closing?_append] at h
    cases hb : closing? quote none before with
    | some m => simp [hb] at h
    | none => simp [hb, closing?, hlast] at h
  · intro h
    cases hc : closing? quote none cs with
    | none => rfl
    | some m =>
      obtain ⟨heq, hlast, -⟩ := closing?_eq_some hc
      exact absurd ⟨m.text, m.rest, heq, by simpa using hlast⟩ h

instance (quote : Char) (cs : List Char) : Decidable (Text.HasBare quote cs) :=
  decidable_of_iff (closing? quote none cs ≠ none) (by rw [ne_eq, closing?_eq_none_iff, not_not])

theorem closing?_of_not_hasBare {quote : Char} {t : List Char} (ht : ¬ Text.HasBare quote t)
    (hlast : t.getLast? ≠ some '\\') (r : List Char) :
    closing? quote none (t ++ quote :: r) = some ⟨t, r⟩ := by
  rw [closing?_append, closing?_eq_none_iff.2 ht]
  simp [closing?, hlast]

theorem closing?_of_hasBare {quote : Char} {t : List Char} (ht : Text.HasBare quote t)
    (r : List Char) :
    ∃ m, closing? quote none (t ++ r) = some m ∧ m.text.length < t.length := by
  cases hc : closing? quote none t with
  | none => exact absurd ht (closing?_eq_none_iff.1 hc)
  | some m =>
    refine ⟨⟨m.text, m.rest ++ r⟩, by rw [closing?_append, hc], ?_⟩
    have hlen := congrArg List.length (closing?_eq_some hc).1
    rw [List.length_append, List.length_cons] at hlen
    dsimp only
    omega

/-! ### Matches -/

/-- What a match of a pattern tells about the text. -/
inductive Takes : Pattern → List Char → Match → Prop where
  | word {w : String} {t r : List Char} (ht : t.map Char.toUpper = w.toList)
      (hr : endsWord r = true) : Takes (.word w) (t ++ r) ⟨t, r⟩
  | quoted {quote : Char} {t r : List Char} (ht : ¬ Text.HasBare quote t)
      (hlast : t.getLast? ≠ some '\\') : Takes (.quoted quote) (quote :: (t ++ quote :: r)) ⟨t, r⟩
  | numeral {t r : List Char} (ht : Munch.numeral.rmatch t = true) : Takes .numeral (t ++ r) ⟨t, r⟩
  | label {name r : List Char} (hne : name ≠ []) (hname : name.all isWordChar = true)
      (hr : r.all Text.isBlank = true) : Takes .label ('@' :: (name ++ r)) ⟨'@' :: name, []⟩
  | blank {c : Char} {r : List Char} (hc : Text.isBlank c = true) : Takes .blank (c :: r) ⟨[], r⟩

theorem takes_of_match? {p : Pattern} {cs : List Char} {m : Match} (h : p.match? cs = some m) :
    p.Takes cs m := by
  cases p with
  | word w =>
    simp only [match?, Munch.afterWord?_eq, String.length_toList] at h
    split at h
    · rename_i r hr
      split at hr
      · rename_i ht
        cases hr
        split at h
        · rename_i hend
          cases h
          have htakes := Takes.word ht hend
          rwa [List.take_append_drop] at htakes
        · cases h
      · cases hr
    · cases h
  | quoted quote =>
    obtain ⟨body, rfl⟩ := Munch.head_of_match?_quoted h
    simp only [match?, if_pos] at h
    obtain ⟨rfl, hlast, hnone⟩ := closing?_eq_some h
    exact .quoted (closing?_eq_none_iff.1 hnone) (by simpa using hlast)
  | numeral =>
    rw [Munch.match?_numeral] at h
    obtain ⟨hacc, rfl⟩ := Munch.exists_of_longest? h
    exact .numeral hacc
  | label =>
    obtain ⟨after, rfl⟩ : ∃ after, cs = '@' :: after := by
      unfold match? at h
      dsimp only at h
      split at h
      · exact ⟨_, rfl⟩
      · cases h
    rw [Munch.match?_label] at h
    split at h
    · rename_i hname
      cases h
      have htakes := Takes.label hname.1 List.all_takeWhile hname.2
      rwa [List.takeWhile_append_dropWhile] at htakes
    · cases h
  | blank =>
    cases cs with
    | nil => cases h
    | cons c cs =>
      simp only [match?] at h
      split at h
      · rename_i hc
        cases h
        exact .blank hc
      · cases h

theorem Takes.text_infix {p : Pattern} {cs : List Char} {m : Match} (h : p.Takes cs m) :
    m.text <:+: cs := by
  cases h with
  | word ht hr => exact (List.prefix_append _ _).isInfix
  | @quoted quote t r ht hlast => exact ⟨[quote], quote :: r, by simp⟩
  | numeral ht => exact (List.prefix_append _ _).isInfix
  | @label name r hne hname hr => exact ⟨[], r, rfl⟩
  | blank hc => exact List.nil_infix

theorem Takes.rest_suffix {p : Pattern} {cs : List Char} {m : Match} (h : p.Takes cs m) :
    m.rest <:+ cs := by
  cases h with
  | word ht hr => exact List.suffix_append _ _
  | @quoted quote t r ht hlast => exact ⟨quote :: (t ++ [quote]), by simp⟩
  | numeral ht => exact List.suffix_append _ _
  | label hne hname hr => exact List.nil_suffix
  | blank hc => exact List.suffix_cons _ _

theorem exists_takes_of_first? {cs : List Char} {kind : Option TokenKind} {m : Match}
    (h : first? table cs = some (kind, m)) : ∃ p, (p, kind) ∈ table ∧ p.Takes cs m := by
  obtain ⟨⟨p, k⟩, hmem, hfound⟩ := List.exists_of_findSome?_eq_some h
  obtain ⟨n, hmatch, heq⟩ := Option.map_eq_some_iff.1 hfound
  cases heq
  exact ⟨p, hmem, takes_of_match? hmatch⟩

end Pattern

/-! ### Tokens -/

/-- The texts that tokens of a kind are made of. -/
inductive Lexeme : TokenKind → List Char → Prop where
  | word {w : String} {kind : TokenKind} {t : List Char} (hw : (w, kind) ∈ Pattern.keywords)
      (ht : t.map Char.toUpper = w.toList) : Lexeme kind t
  | string {t : List Char} (hlast : t.getLast? ≠ some '\\') : Lexeme .string t
  | number {t : List Char} (ht : Munch.numeral.rmatch t = true) : Lexeme .number t
  | label {name : List Char} (hne : name ≠ []) (hname : name.all isWordChar = true) :
      Lexeme .label ('@' :: name)

/-- Texts of tokens, with a label only at the end. -/
inductive Lexemes : List (TokenKind × List Char) → Prop where
  | nil : Lexemes []
  | cons {kind : TokenKind} {t : List Char} {found : List (TokenKind × List Char)}
      (h : Lexeme kind t) (hlabel : kind = .label → found = []) (hrest : Lexemes found) :
      Lexemes ((kind, t) :: found)

theorem keywords_kind : ∀ e ∈ Pattern.keywords,
    e.2 ≠ .string ∧ e.2 ≠ .number ∧ e.2 ≠ .label ∧ e.2 ≠ .skip := by
  decide +kernel

theorem Lexeme.ne_skip {kind : TokenKind} {t : List Char} (h : Lexeme kind t) : kind ≠ .skip := by
  cases h with
  | word hw ht => exact (keywords_kind _ hw).2.2.2
  | string | number | label => exact fun hk => nomatch hk

theorem Lexemes.lexeme {found : List (TokenKind × List Char)} (h : Lexemes found)
    {x : TokenKind × List Char} (hx : x ∈ found) : Lexeme x.1 x.2 := by
  induction h with
  | nil => cases hx
  | cons h _ _ ih =>
    rcases List.mem_cons.1 hx with rfl | hx
    · exact h
    · exact ih hx

theorem Pattern.Takes.lexeme {p : Pattern} {kind : TokenKind} {cs : List Char} {m : Match}
    (he : (p, some kind) ∈ Pattern.table) (h : p.Takes cs m) :
    Lexeme kind m.text ∧ (kind = .label → m.rest = []) := by
  rcases Munch.mem_table.1 he with ⟨w, k, hw, rfl, hk⟩ | hrest
  · cases hk
    cases h with
    | word ht hr => exact ⟨.word hw ht, fun hk => absurd hk (keywords_kind _ hw).2.2.1⟩
  · simp only [List.mem_cons, List.not_mem_nil, or_false, Prod.mk.injEq, Option.some.injEq] at hrest
    rcases hrest with ⟨rfl, rfl⟩ | ⟨rfl, rfl⟩ | ⟨rfl, rfl⟩ | ⟨rfl, rfl⟩ | ⟨rfl, hk⟩
    · cases h with
      | quoted ht hlast => exact ⟨.string hlast, fun hk => nomatch hk⟩
    · cases h with
      | quoted ht hlast => exact ⟨.string hlast, fun hk => nomatch hk⟩
    · cases h with
      | numeral ht => exact ⟨.number ht, fun hk => nomatch hk⟩
    · cases h with
      | label hne hname hr => exact ⟨.label hne hname, fun _ => rfl⟩
    · cases hk

namespace Line

theorem lexemes_of_scanUpTo {n : Nat} {cs : List Char} {found : List (TokenKind × List Char)}
    (h : scanUpTo Pattern.table n cs = .ok found) :
    Lexemes found ∧ ∀ x ∈ found, x.2 <:+: cs := by
  induction n generalizing cs found with
  | zero =>
    cases cs with
    | nil =>
      cases h
      exact ⟨.nil, by simp⟩
    | cons c cs => cases h
  | succ n ih =>
    cases cs with
    | nil =>
      cases h
      exact ⟨.nil, by simp⟩
    | cons c cs =>
      rw [scanUpTo] at h
      split at h
      · cases h
      · rename_i m hfirst
        obtain ⟨p, -, htakes⟩ := Pattern.exists_takes_of_first? hfirst
        obtain ⟨hshape, hparts⟩ := ih h
        exact ⟨hshape, fun x hx => (hparts x hx).trans htakes.rest_suffix.isInfix⟩
      · rename_i kind m hfirst
        obtain ⟨p, hmem, htakes⟩ := Pattern.exists_takes_of_first? hfirst
        obtain ⟨hlexeme, hlast⟩ := htakes.lexeme hmem
        cases hrest : scanUpTo Pattern.table n m.rest with
        | error rest =>
          rw [hrest] at h
          cases h
        | ok later =>
          rw [hrest] at h
          cases h
          obtain ⟨hshape, hparts⟩ := ih hrest
          refine ⟨.cons hlexeme ?_ hshape, ?_⟩
          · intro hk
            rw [hlast hk] at hrest
            cases n <;> exact (Except.ok.inj hrest).symm
          · intro x hx
            rcases List.mem_cons.1 hx with rfl | hx
            · exact htakes.text_infix
            · exact (hparts x hx).trans htakes.rest_suffix.isInfix

theorem lexemes_of_scan {cs : List Char} {found : List (TokenKind × List Char)}
    (h : scan Pattern.table cs = .ok found) : Lexemes found ∧ ∀ x ∈ found, x.2 <:+: cs :=
  lexemes_of_scanUpTo h

end Line

end LineAsm
