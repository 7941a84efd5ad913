import LineAsm.Proofs.Lexemes
import LineAsm.Proofs.Loading

set_option autoImplicit false

/-!
# Reading what was rendered

A rendered line shows its tokens with single blanks between them, strings in double quotes and all
else in upper case. Reading it gives the line again, unless a string has a double quote that no
backslash precedes: such a string was written in single quotes, and double quotes cut it short.
-/

namespace LineAsm

/-! ### Comments -/

namespace Line

theorem beforeComment_cons {c : Char} {cs : List Char} (h : c = '/' → cs.head? ≠ some '/') :
    beforeComment (c :: cs) = c :: beforeComment cs := by
  rw [beforeComment]
  rintro rest rfl rfl
  exact h rfl rfl

theorem beforeComment_eq_self_iff {cs : List Char} :
    beforeComment cs = cs ↔ ¬ ['/', '/'] <:+: cs := by
  fun_induction beforeComment cs with
  | case1 cs =>
    have h : ['/', '/'] <:+: '/' :: '/' :: cs := ⟨[], cs, rfl⟩
    simp [h]
  | case2 c cs h ih =>
    have hno : ¬ ['/', '/'] <+: c :: cs := by
      rintro ⟨rest, heq⟩
      cases heq
      exact h rest rfl rfl
    rw [List.infix_cons_iff, not_or, ← ih]
    simp [hno]
  | case3 => simp

theorem head?_of_head?_beforeComment {cs : List Char} {c : Char}
    (h : (beforeComment cs).head? = some c) : cs.head? = some c := by
  fun_cases beforeComment cs with
  | case1 cs => cases h
  | case2 d cs hd =>
    rw [beforeComment] at h
    · exact h
    · exact hd
  | case3 => cases h

theorem beforeComment_beforeComment (cs : List Char) :
    beforeComment (beforeComment cs) = beforeComment cs := by
  fun_induction beforeComment cs with
  | case1 cs => rfl
  | case2 c cs h ih =>
    rw [beforeComment_cons, ih]
    rintro rfl hhead
    obtain ⟨rest, hrest⟩ := List.head?_eq_some_iff.1 (head?_of_head?_beforeComment hhead)
    exact h rest rfl hrest
  | case3 => rfl

theorem beforeComment_of_infix {t cs : List Char} (h : t <:+: beforeComment cs) :
    beforeComment t = t := by
  rw [beforeComment_eq_self_iff]
  intro hslashes
  exact beforeComment_eq_self_iff.1 (beforeComment_beforeComment cs) (hslashes.trans h)

theorem beforeComment_append_cons {a : List Char} {c : Char} (h : beforeComment a = a)
    (hc : c ≠ '/') (b : List Char) :
    beforeComment (a ++ c :: b) = a ++ c :: beforeComment b := by
  induction a with
  | nil => exact beforeComment_cons fun h => absurd h hc
  | cons x a ih =>
    have hx : x = '/' → a.head? ≠ some '/' := by
      rintro rfl hhead
      obtain ⟨rest, rfl⟩ := List.head?_eq_some_iff.1 hhead
      cases h
    rw [beforeComment_cons hx] at h
    rw [List.cons_append, beforeComment_cons, ih (List.cons.inj h).2, List.cons_append]
    intro hslash
    cases a with
    | nil => simpa using hc
    | cons y a => exact hx hslash

end Line

/-! ### Characters of tokens that are no strings -/

/-- The characters of keywords, numerals and labels. -/
def isPlain (c : Char) : Bool := isWordChar c || c == '-' || c == '.' || c == '@'

theorem isPlain_toUpper (c : Char) : isPlain c.toUpper = isPlain c := by
  by_cases h : c.isLower = true
  · have hword : isWordChar c = true := by simp [isWordChar, Char.isAlphanum, Char.isAlpha, h]
    simp [isPlain, Munch.isWordChar_toUpper, hword]
  · rw [Char.toUpper_eq_of_not_isLower h]

theorem Munch.isDigit_of_mem_numeral {t : List Char} (h : numeral.rmatch t = true) {c : Char}
    (hc : c ∈ t) : c.isDigit = true ∨ c = '-' ∨ c = '.' := by
  obtain ⟨minus, ints, fraction, hn, rfl⟩ := rmatch_numeral.1 h
  rcases List.mem_append.1 hc with hc | hc
  · rcases hn.sign with rfl | rfl
    · cases hc
    · exact .inr (.inl (List.mem_singleton.1 hc))
  rcases List.mem_append.1 hc with hc | hc
  · exact .inl (List.all_eq_true.1 hn.ints c hc)
  rcases hn.point with rfl | ⟨ds, hds, rfl⟩
  · cases hc
  · rcases List.mem_cons.1 hc with rfl | hc
    · exact .inr (.inr rfl)
    · exact .inl (List.all_eq_true.1 hds c hc)

theorem Munch.isPlain_of_rmatch {t : List Char} (h : numeral.rmatch t = true) :
    t.all isPlain = true := by
  rw [List.all_eq_true]
  intro c hc
  rcases isDigit_of_mem_numeral h hc with hd | rfl | rfl
  · simp [isPlain, isWordChar, Char.isAlphanum, hd]
  · rfl
  · rfl

theorem Munch.map_toUpper_of_rmatch {t : List Char} (h : numeral.rmatch t = true) :
    t.map Char.toUpper = t := by
  nth_rewrite 2 [← List.map_id t]
  apply List.map_congr_left
  intro c hc
  apply Char.toUpper_eq_of_not_isLower
  rcases isDigit_of_mem_numeral h hc with hd | rfl | rfl
  · intro hl
    have ha : c.isAlpha = true := by simp [Char.isAlpha, hl]
    rw [isAlpha_of_isDigit hd] at ha
    cases ha
  · decide
  · decide

theorem Lexeme.all_isPlain {kind : TokenKind} {t : List Char} (h : Lexeme kind t)
    (hk : kind ≠ .string) : t.all isPlain = true := by
  have hword : ∀ cs : List Char, cs.all isWordChar = true → cs.all isPlain = true := by
    intro cs hcs
    rw [List.all_eq_true] at hcs ⊢
    intro c hc
    simp [isPlain, hcs c hc]
  cases h with
  | word hw ht =>
    have hchars := (Munch.keywords_spelled _ hw).1
    exact hword _ (Munch.all_isWordChar_of_toUpper hchars ht)
  | string _ => exact absurd rfl hk
  | number ht => exact Munch.isPlain_of_rmatch ht
  | label _ hname => exact Bool.and_eq_true_iff.2 ⟨rfl, hword _ hname⟩

/-! ### Tokens -/

def Lexeme.shown (x : TokenKind × List Char) : List Char :=
  if x.1 = .string then '"' :: (x.2 ++ ['"']) else x.2.map Char.toUpper

theorem Line.token_kept (index : Nat) (kind : TokenKind) (t : List Char) :
    readWith.token index (kind, Line.kept (kind, t)) = readWith.token index (kind, t) := by
  have hkept : Line.kept (kind, Line.kept (kind, t)) = Line.kept (kind, t) := by
    unfold Line.kept
    dsimp only
    split
    · rfl
    · rw [List.map_map]
      exact List.map_congr_left fun c _ => Char.toUpper_toUpper_eq_toUpper c
  rw [token_eq, token_eq, hkept]

theorem Line.toList_render_token (index : Nat) (x : TokenKind × List Char) :
    (readWith.token index x).render.toList = Lexeme.shown x := by
  rw [token_eq, Token.render, Lexeme.shown, Line.kept]
  split
  · rename_i hk
    dsimp only at hk
    simp [hk]
  · rename_i hk
    dsimp only at hk
    rw [if_neg hk, if_neg hk, String.toList_ofList]

namespace Munch

theorem token?_of_match? {p : Pattern} {k : Option TokenKind} {cs : List Char} {m : Match}
    (he : (p, k) ∈ Pattern.table) (h : p.match? cs = some m) : token? cs = some (k, m) := by
  rw [token?_eq, pattern?_of_match? he h, Option.bind_some,
    (lookup_eq_some_iff_mem nodup_patterns).2 he, Option.bind_some, h, Option.map_some]

theorem match?_numeral_append {t r : List Char} (ht : numeral.rmatch t = true)
    (hr : ∀ c ∈ r.head?, c = ' ') : Pattern.match? .numeral (t ++ r) = some ⟨t, r⟩ := by
  rw [match?_numeral]
  apply longest?_eq_some ht
  intro u hu hacc
  rcases List.prefix_or_prefix_of_prefix hu (List.prefix_append t r) with hle | ⟨v, rfl⟩
  · exact hle.length_le
  · -- A longer numeral would go on with the blank.
    cases v with
    | nil => simp
    | cons c v =>
      have hc : c = ' ' := by
        obtain ⟨w, hw⟩ := (List.prefix_append_right_inj t).1 hu
        apply hr
        rw [← hw]
        rfl
      have hplain := List.all_eq_true.1 (isPlain_of_rmatch hacc) c (by simp)
      rw [hc] at hplain
      cases hplain

end Munch

/-- A token that is shown is found again where a blank or the end of the line follows it, if it is
no string with a double quote of its own. -/
theorem Lexeme.token?_shown {kind : TokenKind} {t : List Char} (h : Lexeme kind t)
    (hbare : kind = .string → ¬ Text.HasBare '"' t) {r : List Char} (hr : ∀ c ∈ r.head?, c = ' ')
    (hlabel : kind = .label → r = []) :
    Munch.token? (shown (kind, t) ++ r) = some (some kind, ⟨Line.kept (kind, t), r⟩) := by
  cases h with
  | word hw ht =>
    have hne := (keywords_kind _ hw).1
    rw [shown, Line.kept, if_neg hne, if_neg hne]
    refine Munch.token?_of_match? (Munch.mem_table.2 (.inl ⟨_, _, hw, rfl, rfl⟩)) ?_
    apply Munch.match?_word_append
    · rw [List.map_map, ← ht]
      exact List.map_congr_left fun c _ => Char.toUpper_toUpper_eq_toUpper c
    · cases r with
      | nil => rfl
      | cons c r =>
        rw [hr c rfl]
        rfl
  | string hlast =>
    refine Munch.token?_of_match? (p := .quoted '"') (by simp [Pattern.table]) ?_
    have hclose := Pattern.closing?_of_not_hasBare (hbare rfl) hlast r
    simpa [Pattern.match?, shown, Line.kept] using hclose
  | number ht =>
    have hupper := Munch.map_toUpper_of_rmatch ht
    refine Munch.token?_of_match? (p := .numeral) (by simp [Pattern.table]) ?_
    simpa [shown, Line.kept, hupper] using Munch.match?_numeral_append ht hr
  | @label name hne hname =>
    obtain rfl := hlabel rfl
    refine Munch.token?_of_match? (p := .label) (by simp [Pattern.table]) ?_
    have hupper : (name.map Char.toUpper).all isWordChar = true := by
      rw [List.all_map, ← hname]
      exact congrArg name.all (funext Munch.isWordChar_toUpper)
    have htake := Munch.takeWhile_eq_of_endsWord hupper (r := []) rfl
    simp only [List.append_nil] at htake
    simp [shown, Line.kept, Munch.match?_label, htake, hne]

theorem Lexeme.token?_shown_of_hasBare {t : List Char} (h : Text.HasBare '"' t) (r : List Char) :
    ∃ m : Match, Munch.token? (shown (.string, t) ++ r) = some (some .string, m) ∧
      m.text.length < t.length := by
  obtain ⟨m, hclose, hlen⟩ := Pattern.closing?_of_hasBare h ('"' :: r)
  refine ⟨m, Munch.token?_of_match? (p := .quoted '"') (by simp [Pattern.table]) ?_, hlen⟩
  simpa [Pattern.match?, shown] using hclose

/-! ### Lines -/

namespace Line

def shown (found : List (TokenKind × List Char)) : List Char :=
  [' '].intercalate (found.map Lexeme.shown)

theorem shown_cons_cons (x y : TokenKind × List Char) (found : List (TokenKind × List Char)) :
    shown (x :: y :: found) = Lexeme.shown x ++ ' ' :: shown (y :: found) := by
  simp [shown, List.intercalate_cons_cons]

theorem tokens_ofFound {found : List (TokenKind × List Char)} (h : found ≠ []) (index : Nat) :
    (ofFound index found).tokens = found.map (readWith.token index) := by
  cases found with
  | nil => exact absurd rfl h
  | cons x found => rfl

theorem toList_render_ofFound (index : Nat) (found : List (TokenKind × List Char)) :
    (ofFound index found).render.toList = shown found := by
  cases found with
  | nil => rfl
  | cons x found =>
    have hrender : (String.toList ∘ Token.render) ∘ readWith.token index = Lexeme.shown :=
      funext (toList_render_token index)
    rw [render, String.toList_intercalate, tokens_ofFound (List.cons_ne_nil x found), List.map_map,
      List.map_map, hrender]
    rfl

end Line

namespace Munch

theorem tokens_of_token? {cs : List Char} {kind : TokenKind} {m : Match}
    (h : token? cs = some (some kind, m)) :
    tokens cs = (tokens m.rest).map ((kind, m.text) :: ·) := by
  cases cs with
  | nil => cases h
  | cons c cs => rw [tokens_cons, h]

theorem tokens_blank (cs : List Char) : tokens (' ' :: cs) = tokens cs := by
  have hblank : token? (' ' :: cs) = some (none, ⟨[], cs⟩) := rfl
  rw [tokens_cons, hblank]

end Munch

namespace Line

/-- What follows the first token of a shown line is the rest of the line, after a blank. -/
theorem exists_shown_cons (x : TokenKind × List Char) (found : List (TokenKind × List Char)) :
    ∃ r, shown (x :: found) = Lexeme.shown x ++ r ∧ (∀ c ∈ r.head?, c = ' ') ∧
      Munch.tokens r = Munch.tokens (shown found) ∧ (found = [] → r = []) := by
  cases found with
  | nil => exact ⟨[], by simp [shown], by simp, rfl, fun _ => rfl⟩
  | cons y found =>
    refine ⟨' ' :: shown (y :: found), shown_cons_cons x y found, ?_, Munch.tokens_blank _, ?_⟩
    · rintro c hc
      exact (Option.some.inj hc).symm
    · intro h
      cases h

/-- The tokens of a shown line are those it was made of, unless a string has a double quote. -/
theorem tokens_shown_iff {found : List (TokenKind × List Char)} (h : Lexemes found) (index : Nat) :
    (∃ again, Munch.tokens (shown found) = .ok again ∧
        again.map (readWith.token index) = found.map (readWith.token index)) ↔
      ∀ x ∈ found, x.1 = .string → ¬ Text.HasBare '"' x.2 := by
  induction h with
  | nil =>
    have hnil : Munch.tokens (shown []) = .ok [] := by
      rw [Munch.tokens]
      rfl
    simp [hnil]
  | @cons kind t found hx hlabel hrest ih =>
    obtain ⟨r, hshown, hr, htokens, hnil⟩ := exists_shown_cons (kind, t) found
    rw [hshown, List.forall_mem_cons, ← ih]
    by_cases hbare : kind = .string ∧ Text.HasBare '"' t
    · obtain ⟨rfl, hbare⟩ := hbare
      obtain ⟨m, htoken, hlen⟩ := Lexeme.token?_shown_of_hasBare hbare r
      constructor
      · rintro ⟨again, hagain, heq⟩
        rw [Munch.tokens_of_token? htoken] at hagain
        cases hm : Munch.tokens m.rest with
        | error rest =>
          rw [hm] at hagain
          cases hagain
        | ok later =>
          rw [hm] at hagain
          cases hagain
          have htext := congrArg (fun t => t.text.length) (List.cons.inj heq).1
          simp [token_eq, Line.kept] at htext
          omega
      · rintro ⟨hno, -⟩
        exact absurd hbare (hno rfl)
    · have hclean : kind = .string → ¬ Text.HasBare '"' t := fun hk hb => hbare ⟨hk, hb⟩
      have htoken := hx.token?_shown hclean hr fun hk => hnil (hlabel hk)
      rw [Munch.tokens_of_token? htoken, htokens, and_iff_right hclean]
      cases Munch.tokens (shown found) with
      | error rest => simp [Except.map]
      | ok later => simp [Except.map, token_kept]

theorem scan_eq_tokens (cs : List Char) : scan Pattern.table cs = Munch.tokens cs :=
  Munch.scanUpTo_eq_tokens (.refl _) le_rfl

theorem ofFound_inj {found again : List (TokenKind × List Char)} (hf : Lexemes found)
    (ha : Lexemes again) (index : Nat) :
    ofFound index found = ofFound index again ↔
      found.map (readWith.token index) = again.map (readWith.token index) := by
  cases hf with
  | nil =>
    cases ha with
    | nil => simp
    | cons hx =>
      have hne := hx.ne_skip
      simp [ofFound, skip, token_eq, Token.skip, hne.symm]
  | cons hx =>
    cases ha with
    | nil =>
      have hne := hx.ne_skip
      simp [ofFound, skip, token_eq, Token.skip, hne]
    | cons => simp [ofFound]

/-! ### Shown lines as texts -/

theorem beforeComment_subset (cs : List Char) : beforeComment cs ⊆ cs := by
  fun_induction beforeComment cs with
  | case1 cs => exact List.nil_subset _
  | case2 c cs h ih => exact List.cons_subset_cons c ih
  | case3 => exact List.nil_subset _

end Line

theorem Lexeme.beforeComment_shown {kind : TokenKind} {t : List Char} (h : Lexeme kind t)
    (ht : Line.beforeComment t = t) :
    Line.beforeComment (shown (kind, t)) = shown (kind, t) := by
  unfold shown
  dsimp only
  split
  · rw [Line.beforeComment_cons (by simp), Line.beforeComment_append_cons ht (by decide)]
    rfl
  · rename_i hk
    rw [Line.beforeComment_eq_self_iff]
    intro hslashes
    have hmem : '/' ∈ t.map Char.toUpper := hslashes.subset List.mem_cons_self
    obtain ⟨c, hc, hupper⟩ := List.mem_map.1 hmem
    have hplain := List.all_eq_true.1 (h.all_isPlain hk) c hc
    rw [← isPlain_toUpper, hupper] at hplain
    cases hplain

theorem Lexeme.mem_of_mem_shown {kind : TokenKind} {t : List Char} (h : Lexeme kind t) {c : Char}
    (hc : c ∈ shown (kind, t)) : c ∈ t ∨ c = '"' ∨ isPlain c = true := by
  unfold shown at hc
  dsimp only at hc
  split at hc
  · simp only [List.mem_cons, List.mem_append, List.not_mem_nil, or_false] at hc
    tauto
  · rename_i hk
    obtain ⟨d, hd, rfl⟩ := List.mem_map.1 hc
    rw [isPlain_toUpper]
    exact .inr (.inr (List.all_eq_true.1 (h.all_isPlain hk) d hd))

theorem Lexeme.getLast?_shown {kind : TokenKind} {t : List Char} (h : Lexeme kind t) {c : Char}
    (hc : (shown (kind, t)).getLast? = some c) : c = '"' ∨ isPlain c = true := by
  unfold shown at hc
  dsimp only at hc
  split at hc
  · rw [← List.cons_append, List.getLast?_concat] at hc
    exact .inl (Option.some.inj hc).symm
  · rename_i hk
    obtain ⟨d, hd, rfl⟩ := List.mem_map.1 (List.mem_of_getLast? hc)
    rw [isPlain_toUpper]
    exact .inr (List.all_eq_true.1 (h.all_isPlain hk) d hd)

namespace Line

/-- What holds of shown tokens, and of texts with a blank between them, holds of a shown line. -/
theorem shown_ind {motive : List Char → Prop} {found : List (TokenKind × List Char)}
    (nil : motive []) (token : ∀ x ∈ found, motive (Lexeme.shown x))
    (join : ∀ a b, motive a → motive b → motive (a ++ ' ' :: b)) : motive (shown found) := by
  induction found with
  | nil => exact nil
  | cons x found ih =>
    obtain ⟨hx, hrest⟩ := List.forall_mem_cons.1 token
    cases found with
    | nil =>
      rw [shown, List.map_singleton, List.intercalate_singleton]
      exact hx
    | cons y found =>
      rw [shown_cons_cons]
      exact join _ _ hx (ih hrest)

theorem beforeComment_shown {found : List (TokenKind × List Char)} (h : Lexemes found)
    (hparts : ∀ x ∈ found, beforeComment x.2 = x.2) :
    beforeComment (shown found) = shown found := by
  refine shown_ind (motive := fun cs => beforeComment cs = cs) rfl ?_ ?_
  · intro x hx
    exact (h.lexeme hx).beforeComment_shown (hparts x hx)
  · intro a b ha hb
    rw [beforeComment_append_cons ha (by decide), hb]

theorem newline_not_mem_shown {found : List (TokenKind × List Char)} (h : Lexemes found)
    (hparts : ∀ x ∈ found, '\n' ∉ x.2) : '\n' ∉ shown found := by
  refine shown_ind (motive := fun cs => '\n' ∉ cs) List.not_mem_nil ?_ ?_
  · intro x hx hmem
    rcases (h.lexeme hx).mem_of_mem_shown hmem with hc | hc | hc
    · exact hparts x hx hc
    · cases hc
    · cases hc
  · intro a b ha hb
    simp [ha, hb]

theorem getLast?_shown {found : List (TokenKind × List Char)} (h : Lexemes found) :
    (shown found).getLast? ≠ some '\r' := by
  refine shown_ind (motive := fun cs => cs.getLast? ≠ some '\r') (by simp) ?_ ?_
  · intro x hx hlast
    rcases (h.lexeme hx).getLast?_shown hlast with hc | hc <;> cases hc
  · intro a b _ hb
    rw [List.getLast?_append, List.getLast?_cons]
    cases hlast : b.getLast? with
    | none => simp
    | some c => simpa [hlast] using hb

theorem read_render_iff {index : Nat} {text : List Char} {l : Line} (h : read index text = .ok l) :
    read index (Program.dropReturn l.render.toList) = .ok l ↔
      ∀ t ∈ l.tokens, t.kind = .string → ¬ Text.HasBare '"' t.text.toList := by
  obtain ⟨found, hscan, hlen, rfl⟩ := read_eq_ok_iff.1 h
  obtain ⟨hfound, hparts⟩ := lexemes_of_scan hscan
  have hcomment := beforeComment_shown hfound fun x hx => beforeComment_of_infix (hparts x hx)
  have hbare : (∀ t ∈ (ofFound index found).tokens, t.kind = .string →
      ¬ Text.HasBare '"' t.text.toList) ↔ ∀ x ∈ found, x.1 = .string → ¬ Text.HasBare '"' x.2 := by
    cases found with
    | nil => simp [ofFound, skip, tokens, Token.skip]
    | cons x found =>
      rw [tokens_ofFound (List.cons_ne_nil x found), List.forall_mem_map]
      refine forall₂_congr fun x _ => ?_
      rw [token_eq]
      refine imp_congr_right fun hk => ?_
      rw [Line.kept, if_pos hk, String.toList_ofList]
  rw [toList_render_ofFound, Program.dropReturn, if_neg (getLast?_shown hfound), hbare,
    ← tokens_shown_iff hfound index, read_eq_ok_iff, hcomment]
  simp only [scan_eq_tokens]
  constructor
  · rintro ⟨again, htokens, -, heq⟩
    have hagain := (lexemes_of_scan ((scan_eq_tokens _).trans htokens)).1
    exact ⟨again, htokens, ((ofFound_inj hfound hagain index).1 heq).symm⟩
  · rintro ⟨again, htokens, heq⟩
    have hagain := (lexemes_of_scan ((scan_eq_tokens _).trans htokens)).1
    refine ⟨again, htokens, ?_, (ofFound_inj hfound hagain index).2 heq.symm⟩
    have hlength := congrArg List.length heq
    rw [List.length_map, List.length_map] at hlength
    omega

theorem newline_not_mem_render {index : Nat} {text : List Char} {l : Line}
    (h : read index text = .ok l) (htext : '\n' ∉ text) : '\n' ∉ l.render.toList := by
  obtain ⟨found, hscan, -, rfl⟩ := read_eq_ok_iff.1 h
  obtain ⟨hfound, hparts⟩ := lexemes_of_scan hscan
  rw [toList_render_ofFound]
  apply newline_not_mem_shown hfound
  intro x hx hmem
  exact htext (beforeComment_subset text ((hparts x hx).subset hmem))

end Line

/-! ### Programs -/

namespace Program

/-- The lines of a program as they are shown, one under the other. -/
def rendered (p : Program) : String := String.intercalate "\n" (p.lines.toList.map Line.render)

theorem toList_rendered (p : Program) :
    p.rendered.toList = ['\n'].intercalate (p.lines.toList.map fun l => l.render.toList) := by
  rw [rendered, String.toList_intercalate, List.map_map]
  rfl

theorem newline_not_mem_splitLines {cs text : List Char} (h : text ∈ splitLines cs) :
    '\n' ∉ text := by
  induction cs generalizing text with
  | nil =>
    rw [List.mem_singleton.1 h]
    exact List.not_mem_nil
  | cons c cs ih =>
    unfold splitLines at h
    split at h
    · rcases List.mem_cons.1 h with rfl | h
      · exact List.not_mem_nil
      · exact ih h
    · rename_i hc
      split at h
      · rename_i hnil
        exact absurd hnil (splitLines_ne_nil cs)
      · rename_i l ls hsplit
        rw [hsplit] at ih
        rcases List.mem_cons.1 h with rfl | h
        · rw [List.mem_cons, not_or]
          exact ⟨Ne.symm hc, ih List.mem_cons_self⟩
        · exact ih (List.mem_cons_of_mem l h)

theorem dropReturn_subset (cs : List Char) : dropReturn cs ⊆ cs := by
  unfold dropReturn
  split
  · exact List.dropLast_subset cs
  · exact List.Subset.refl cs

theorem splitLines_rendered {ls : List Line} {cs : List Char}
    (h : readLines 0 (splitLines cs) = .ok ls) :
    splitLines (ofLines ls).rendered.toList = ls.map fun l => l.render.toList := by
  rw [splitLines_eq_splitOn, toList_rendered]
  apply List.splitOn_intercalate
  · rw [List.forall_mem_map]
    intro l hl
    obtain ⟨i, hi⟩ := List.mem_iff_getElem?.1 hl
    obtain ⟨text, htext, hread⟩ := (getElem?_readLines h).1 hi
    apply Line.newline_not_mem_render hread
    intro hmem
    exact newline_not_mem_splitLines (List.mem_of_getElem? htext) (dropReturn_subset text hmem)
  · have hlen := length_readLines h
    have hpos := List.length_pos_iff.2 (splitLines_ne_nil cs)
    rw [ne_eq, List.map_eq_nil_iff, ← List.length_eq_zero_iff]
    exact Nat.ne_of_gt (hlen ▸ hpos)

theorem load_rendered {source : String} {p : Program} (h : load source = .ok p) :
    load p.rendered = .ok p ↔
      ∀ l ∈ p.lines, ∀ t ∈ l.tokens, t.kind = .string → ¬ Text.HasBare '"' t.text.toList := by
  obtain ⟨ls, hls, rfl⟩ := exists_lines_of_load h
  have hload : load (ofLines ls).rendered = .ok (ofLines ls) ↔
      readLines 0 (ls.map fun l => l.render.toList) = .ok ls := by
    rw [load, splitLines_rendered hls]
    cases readLines 0 (ls.map fun l => l.render.toList) with
    | error d => simp [Except.map]
    | ok ms =>
      have hinj : ofLines ms = ofLines ls ↔ ms = ls :=
        ⟨fun heq => List.toArray_inj (congrArg Program.lines heq), congrArg ofLines⟩
      simp [Except.map, hinj]
  have hlines : readLines 0 (ls.map fun l => l.render.toList) = .ok ls ↔
      ∀ i l, ls[i]? = some l → Line.read i (dropReturn l.render.toList) = .ok l := by
    rw [readLines_eq_ok_iff, List.ext_getElem?_iff]
    refine forall_congr' fun i => ?_
    rw [List.getElem?_mapIdx, List.getElem?_map, List.getElem?_map, Nat.zero_add]
    cases ls[i]? <;> simp
  rw [hload, hlines]
  constructor
  · intro hread l hl
    obtain ⟨i, hi⟩ := List.mem_iff_getElem?.1 (List.mem_toArray.1 hl)
    obtain ⟨text, -, htext⟩ := (getElem?_readLines hls).1 hi
    rw [Nat.zero_add] at htext
    exact (Line.read_render_iff htext).1 (hread i l hi)
  · intro hbare i l hi
    obtain ⟨text, -, htext⟩ := (getElem?_readLines hls).1 hi
    rw [Nat.zero_add] at htext
    exact (Line.read_render_iff htext).2 (hbare l (List.mem_toArray.2 (List.mem_of_getElem? hi)))

end Program

/-- Only a string in single quotes can have a double quote of its own. -/
theorem Pattern.head?_of_hasBare {cs : List Char} {m : Match}
    (h : first? table cs = some (some .string, m)) (hbare : Text.HasBare '"' m.text) :
    cs.head? = some '\'' := by
  obtain ⟨p, hmem, htakes⟩ := exists_takes_of_first? h
  rcases Munch.mem_table.1 hmem with ⟨w, kind, hw, rfl, hk⟩ | hrest
  · cases hk
    exact absurd rfl (keywords_kind _ hw).1
  · simp only [List.mem_cons, List.not_mem_nil, or_false, Prod.mk.injEq, Option.some.injEq,
      reduceCtorEq, and_false, and_true] at hrest
    rcases hrest with rfl | rfl
    · cases htakes with
      | quoted ht hlast => exact absurd hbare ht
    · cases htakes with
      | quoted ht hlast => rfl

/-- Loading what a loaded program is shown as gives the program again if and only if no string of
it has a double quote that no backslash precedes, which needs single quotes in the source. -/
theorem load_rendered_iff :
    (∀ source p, Program.load source = .ok p →
      (Program.load p.rendered = .ok p ↔
        ∀ l ∈ p.lines, ∀ t ∈ l.tokens, t.kind = .string →
          ¬ Text.HasBare '"' t.text.toList)) ∧
    ∀ cs m, Pattern.first? Pattern.table cs = some (some .string, m) →
      Text.HasBare '"' m.text → cs.head? = some '\'' :=
  ⟨fun _ _ h => Program.load_rendered h, fun _ _ h hbare => Pattern.head?_of_hasBare h hbare⟩

/-- A source that is shown in double quotes and read again, and one that cannot be. -/
theorem load_rendered_iff_quotes :
    let p := (Program.load "@a\nmov 'it\\\"s' r1 // note\njump  @A").toOption.getD default
    let q := (Program.load "mov 'a\"b' out").toOption.getD default
    Program.load p.rendered = .ok p ∧ Program.load q.rendered ≠ .ok q ∧
      "'a\"b' out".toList.head? = some '\'' := by
  intro p q
  have hp : Program.load "@a\nmov 'it\\\"s' r1 // note\njump  @A" = .ok p := by decide +kernel
  have hq : Program.load "mov 'a\"b' out" = .ok q := by decide +kernel
  have hclean : ∀ l ∈ p.lines, ∀ t ∈ l.tokens, t.kind = .string →
      ¬ Text.HasBare '"' t.text.toList := by decide +kernel
  have hbare : ¬ ∀ l ∈ q.lines, ∀ t ∈ l.tokens, t.kind = .string →
      ¬ Text.HasBare '"' t.text.toList := by decide +kernel
  have hfirst : Pattern.first? Pattern.table "'a\"b' out".toList =
      some (some .string, ⟨"a\"b".toList, " out".toList⟩) := by decide +kernel
  exact ⟨(load_rendered_iff.1 _ _ hp).2 hclean, fun h => hbare ((load_rendered_iff.1 _ _ hq).1 h),
    load_rendered_iff.2 _ _ hfirst (by decide +kernel)⟩

end LineAsm
