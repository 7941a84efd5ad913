import LineAsm.Proofs.Concatenation
import LineAsm.Proofs.Following
import LineAsm.Proofs.Padding

set_option autoImplicit false

/-!
# The shape of a line

A label takes all that is left of its line, and only a line without tokens gets a skip token. So the
lines that the machine passes over are those of a single skip token or a single label: to look at
the head of a line is enough, and no instruction is lost on the way. What a token keeps of its
spelling is limited by its kind: a comment cuts every string that two slashes stand in, and a quote
after a backslash closes none.
-/

namespace LineAsm

/-- What the text of a token can look like. -/
structure Token.Shape (t : Token) : Prop where
  noLower : t.kind ≠ .string → ∀ c ∈ t.text.toList, c.isLower = false
  label : t.kind = .label → ∃ name, name ≠ [] ∧ t.text.toList = '@' :: name ∧
    ∀ c ∈ name, c.isUpper = true ∨ c.isDigit = true ∨ c = '_'
  string : t.kind = .string → '\n' ∉ t.text.toList ∧ ¬ ['/', '/'] <:+: t.text.toList ∧
    t.text.toList.getLast? ≠ some '\\'

/-- What a line can look like that was read from a text. -/
structure Line.Shape (text : List Char) (l : Line) : Prop where
  count : 1 ≤ l.tokens.length ∧ l.tokens.length ≤ 3
  skip_alone : ∀ t ∈ l.tokens, t.kind = .skip → l.tokens = [t]
  skip_iff : (∃ t ∈ l.tokens, t.kind = .skip) ↔
    (Munch.beforeSlashes text).all Text.isBlank = true
  label_last : ∀ before t after, l.tokens = before ++ t :: after → t.kind = .label → after = []
  inert_iff : l.isInert = true ↔ ∃ t, l.tokens = [t] ∧ (t.kind = .skip ∨ t.kind = .label)
  label_iff : l.isInert = true ∧ l.head.kind ≠ .skip ↔ l.label?.isSome = true
  spelling : ∀ t ∈ l.tokens, t.Shape

def Line.HasOpcode (l : Line) : Prop := ∃ t ∈ l.tokens, ∃ op, t.kind = .opcode op

/-! ### Tokens -/

theorem isLower_of_mem_toUpper {cs : List Char} {c : Char} (hc : c ∈ cs.map Char.toUpper) :
    c.isLower = false := by
  obtain ⟨d, -, rfl⟩ := List.mem_map.1 hc
  exact Char.isLower_toUpper_eq_false d

theorem Token.isInert_iff {t : Token} : t.isInert = true ↔ t.kind = .skip ∨ t.kind = .label := by
  obtain ⟨kind, text, line⟩ := t
  cases kind <;> simp [isInert]

theorem Lexeme.shape {kind : TokenKind} {t : List Char} (h : Lexeme kind t) (hline : '\n' ∉ t)
    (hslashes : ¬ ['/', '/'] <:+: t) (index : Nat) :
    (Line.readWith.token index (kind, t)).Shape := by
  rw [Line.token_eq]
  refine ⟨?_, ?_, ?_⟩
  · intro hk c hc
    rw [String.toList_ofList, Line.kept, if_neg hk] at hc
    exact isLower_of_mem_toUpper hc
  · intro hk
    rw [String.toList_ofList, Line.kept]
    cases h with
    | word hw _ => exact absurd hk (keywords_kind _ hw).2.2.1
    | string | number => cases hk
    | @label name hne hname =>
      refine ⟨name.map Char.toUpper, by simpa using hne, rfl, ?_⟩
      intro c hc
      have hlower := isLower_of_mem_toUpper hc
      obtain ⟨d, hd, rfl⟩ := List.mem_map.1 hc
      have hword := List.all_eq_true.1 hname d hd
      rw [← Munch.isWordChar_toUpper, isWordChar, Char.isAlphanum, Char.isAlpha, hlower,
        Bool.or_false, Bool.or_eq_true, Bool.or_eq_true, beq_iff_eq, or_assoc] at hword
      exact hword
  · intro hk
    rw [String.toList_ofList, Line.kept, if_pos hk]
    cases h with
    | word hw _ => exact absurd hk (keywords_kind _ hw).1
    | string hlast => exact ⟨hline, hslashes, hlast⟩
    | number | label => cases hk

theorem Lexemes.eq_nil_of_label {before after : List (TokenKind × List Char)} {t : List Char}
    (h : Lexemes (before ++ (.label, t) :: after)) : after = [] := by
  induction before with
  | nil =>
    cases h with
    | cons _ hlabel _ => exact hlabel rfl
  | cons x before ih =>
    cases h with
    | cons _ _ hrest => exact ih hrest

/-! ### Lines -/

namespace Munch

theorem exists_kind_of_token? {c : Char} (hc : Text.isBlank c = false) {cs : List Char}
    {kind : Option TokenKind} {m : Match} (h : token? (c :: cs) = some (kind, m)) :
    ∃ k, kind = some k := by
  rw [token?, hc, if_neg Bool.false_ne_true] at h
  split_ifs at h
  · obtain ⟨k, -, heq⟩ := Option.map_eq_some_iff.1 h
    cases heq
    exact ⟨k, rfl⟩
  · obtain ⟨m, -, heq⟩ := Option.map_eq_some_iff.1 h
    cases heq
    exact ⟨.number, rfl⟩
  · obtain ⟨n, -, heq⟩ := Option.map_eq_some_iff.1 h
    cases heq
    exact ⟨.string, rfl⟩
  · cases h
    exact ⟨.label, rfl⟩

theorem tokens_eq_nil_iff {cs : List Char} :
    tokens cs = .ok [] ↔ cs.all Text.isBlank = true := by
  refine ⟨?_, tokens_of_all_isBlank⟩
  intro h
  induction cs with
  | nil => rfl
  | cons c cs ih =>
    rw [tokens_cons] at h
    cases hblank : Text.isBlank c with
    | true =>
      rw [token?, if_pos hblank] at h
      rw [List.all_cons, hblank, ih h]
      rfl
    | false =>
      cases htoken : token? (c :: cs) with
      | none =>
        rw [htoken] at h
        cases h
      | some x =>
        obtain ⟨kind, m⟩ := x
        obtain ⟨k, rfl⟩ := exists_kind_of_token? hblank htoken
        rw [htoken] at h
        cases hrest : tokens m.rest <;> simp [hrest, Except.map] at h

end Munch

namespace Line

theorem shape_skip {text : List Char} (h : (Munch.beforeSlashes text).all Text.isBlank = true)
    (index : Nat) : (skip index).Shape text where
  count := ⟨Nat.le_refl 1, Nat.succ_le_succ (Nat.zero_le 2)⟩
  skip_alone := by
    intro t ht _
    rw [List.mem_singleton.1 ht]
    rfl
  skip_iff := ⟨fun _ => h, fun _ => ⟨.skip index, List.mem_singleton_self _, rfl⟩⟩
  label_last := by
    intro before t after htokens hk
    have ht : t ∈ (skip index).tokens := htokens ▸ List.mem_append_right before List.mem_cons_self
    rw [List.mem_singleton.1 ht] at hk
    cases hk
  inert_iff := ⟨fun _ => ⟨.skip index, rfl, .inl rfl⟩, fun _ => rfl⟩
  label_iff := ⟨fun h => absurd rfl h.2, fun h => nomatch h⟩
  spelling := by
    intro t ht
    rw [List.mem_singleton.1 ht]
    refine ⟨?_, ?_, ?_⟩
    · intro _ c hc
      cases hc
    · intro hk
      cases hk
    · intro hk
      cases hk

section

variable {index : Nat} {found : List (TokenKind × List Char)} (hfound : Lexemes found)
  (hne : found ≠ [])

include hfound hne

theorem kind_ne_skip {t : Token} (ht : t ∈ (ofFound index found).tokens) : t.kind ≠ .skip := by
  rw [tokens_ofFound hne] at ht
  obtain ⟨x, hx, rfl⟩ := List.mem_map.1 ht
  rw [token_eq]
  exact (hfound.lexeme hx).ne_skip

theorem eq_nil_of_label {before after : List Token} {t : Token}
    (h : (ofFound index found).tokens = before ++ t :: after) (hk : t.kind = .label) :
    after = [] := by
  rw [tokens_ofFound hne] at h
  obtain ⟨xs, ys, rfl, -, htail⟩ := List.map_eq_append_iff.1 h
  obtain ⟨⟨kind, spelling⟩, ys, rfl, rfl, rfl⟩ := List.map_eq_cons_iff.1 htail
  rw [token_eq] at hk
  obtain rfl : kind = .label := hk
  rw [hfound.eq_nil_of_label, List.map_nil]

theorem isInert_ofFound_iff : (ofFound index found).isInert = true ↔
    (ofFound index found).head.kind = .label ∧ (ofFound index found).operands = [] := by
  constructor
  · intro h
    rcases Token.isInert_iff.1 h with hk | hk
    · exact absurd hk (kind_ne_skip hfound hne List.mem_cons_self)
    · have htokens : (ofFound index found).tokens =
          [] ++ (ofFound index found).head :: (ofFound index found).operands := rfl
      exact ⟨hk, eq_nil_of_label hfound hne htokens hk⟩
  · intro h
    exact Token.isInert_iff.2 (.inr h.1)

end

theorem shape_ofFound {index : Nat} {text : List Char} {found : List (TokenKind × List Char)}
    (hline : '\n' ∉ text) (hscan : scan Pattern.table (beforeComment text) = .ok found)
    (hlen : found.length ≤ maxOperands + 1) (hne : found ≠ []) :
    (ofFound index found).Shape text := by
  obtain ⟨hfound, hparts⟩ := lexemes_of_scan hscan
  have htokens := tokens_ofFound hne index
  have hinert : (ofFound index found).isInert = true ↔ _ := isInert_ofFound_iff hfound hne
  refine ⟨⟨Nat.succ_le_succ (Nat.zero_le _), ?_⟩, ?_, ⟨?_, ?_⟩,
    fun _ _ _ => eq_nil_of_label hfound hne, ⟨?_, ?_⟩, ⟨?_, ?_⟩, ?_⟩
  · rw [htokens, List.length_map]
    exact hlen
  · intro t ht hk
    exact absurd hk (kind_ne_skip hfound hne ht)
  · rintro ⟨t, ht, hk⟩
    exact absurd hk (kind_ne_skip hfound hne ht)
  · intro hblank
    rw [← Munch.beforeComment_eq, ← Munch.tokens_eq_nil_iff, ← scan_eq_tokens, hscan] at hblank
    exact absurd (Except.ok.inj hblank) hne
  · intro h
    obtain ⟨hk, hops⟩ := hinert.1 h
    exact ⟨_, congrArg (_ :: ·) hops, .inr hk⟩
  · rintro ⟨t, heq, hk⟩
    obtain ⟨rfl, -⟩ := List.cons.inj heq
    exact Token.isInert_iff.2 hk
  · rintro ⟨h, -⟩
    obtain ⟨hk, hops⟩ := hinert.1 h
    simp [label?, hk, hops]
  · intro h
    rw [label?] at h
    split at h
    · rename_i hlabel
      rw [Bool.and_eq_true, beq_iff_eq] at hlabel
      exact ⟨Token.isInert_iff.2 (.inr hlabel.2), kind_ne_skip hfound hne List.mem_cons_self⟩
    · cases h
  · intro t ht
    rw [htokens] at ht
    obtain ⟨⟨kind, spelling⟩, hx, rfl⟩ := List.mem_map.1 ht
    refine (hfound.lexeme hx).shape ?_ ?_ index
    · exact fun hmem => hline (beforeComment_subset text ((hparts _ hx).subset hmem))
    · have hkept := beforeComment_of_infix (hparts _ hx)
      exact beforeComment_eq_self_iff.1 hkept

theorem shape_of_read {index : Nat} {text : List Char} {l : Line} (h : read index text = .ok l)
    (hline : '\n' ∉ text) : l.Shape text := by
  obtain ⟨found, hscan, hlen, rfl⟩ := read_eq_ok_iff.1 h
  by_cases hne : found = []
  · subst hne
    rw [scan_eq_tokens, Munch.tokens_eq_nil_iff, Munch.beforeComment_eq] at hscan
    exact shape_skip hscan index
  · exact shape_ofFound hline hscan hlen hne

theorem Shape.not_hasOpcode {text : List Char} {l : Line} (h : l.Shape text)
    (hinert : l.isInert = true) : ¬ l.HasOpcode := by
  rintro ⟨t, ht, op, hop⟩
  obtain ⟨u, htokens, hk⟩ := h.inert_iff.1 hinert
  rw [htokens] at ht
  rw [← List.mem_singleton.1 ht, hop] at hk
  rcases hk with hk | hk <;> cases hk

end Line

/-! ### Programs -/

namespace Program

theorem exists_shape_of_load {source : String} {p : Program} (h : load source = .ok p) {i : Nat}
    {text : List Char} (htext : (source.toList.splitOn '\n')[i]? = some text) :
    ∃ l, p.line? i = some l ∧ l.Shape text := by
  obtain ⟨ls, hls, rfl⟩ := exists_lines_of_load h
  have hi : i < ls.length := by
    rw [length_readLines hls, splitLines_eq_splitOn]
    exact (List.getElem?_eq_some_iff.1 htext).1
  have hl : (ofLines ls).lines[i]? = some ls[i] := by
    rw [ofLines, List.getElem?_toArray, List.getElem?_eq_getElem hi]
  obtain ⟨text', htext', hread⟩ := (getElem?_lines_of_load h).1 hl
  obtain rfl : text = text' := Option.some.inj (htext.symm.trans htext')
  rw [read_dropReturn] at hread
  refine ⟨ls[i], hl, Line.shape_of_read hread ?_⟩
  exact newline_not_mem_splitLines (splitLines_eq_splitOn _ ▸ List.mem_of_getElem? htext)

theorem following_passes {source : String} {p : Program} (h : load source = .ok p) (i : Nat) :
    ∃ n ≤ p.size, p.following i = (i + 1 + n) % p.size ∧
      ∀ k < n, ¬ (p.line ((i + 1 + k) % p.size)).HasOpcode := by
  have hsize := size_pos_of_load h
  obtain ⟨n, hn, hpass, hbefore, -⟩ := p.passInert_eq p.size (nextIndex_lt hsize i)
  refine ⟨n, hn, ?_, ?_⟩
  · rw [following, hpass, nextIndex, Nat.mod_add_mod]
  · intro k hk
    have hinert := hbefore k hk
    rw [nextIndex, Nat.mod_add_mod] at hinert
    have hlt : (i + 1 + k) % p.size < (source.toList.splitOn '\n').length := by
      rw [← splitLines_eq_splitOn, length_splitLines, ← size_of_load h]
      exact Nat.mod_lt _ hsize
    obtain ⟨l, hl, hshape⟩ := exists_shape_of_load h (List.getElem?_eq_getElem hlt)
    rw [line, hl, Option.getD_some] at hinert ⊢
    exact hshape.not_hasOpcode hinert

end Program

/-- Every line of a program that was loaded has the shape of its source line: one to three tokens, a
skip token alone and exactly where nothing stands before a comment, a label last. A line is inert
exactly if it is one skip token or one label, and the advance from any line passes over no line with
an instruction. -/
theorem loaded_lines_have_shape {source : String} {p : Program}
    (h : Program.load source = .ok p) :
    p.size = (source.toList.splitOn '\n').length ∧
    (∀ i text, (source.toList.splitOn '\n')[i]? = some text →
      ∃ l, p.line? i = some l ∧ l.Shape text) ∧
    ∀ i, ∃ n ≤ p.size, p.following i = (i + 1 + n) % p.size ∧
      ∀ k < n, ¬ (p.line ((i + 1 + k) % p.size)).HasOpcode := by
  refine ⟨?_, fun i text => Program.exists_shape_of_load h, Program.following_passes h⟩
  rw [Program.size_of_load h, ← Program.splitLines_eq_splitOn, Program.length_splitLines]

/-- A label with blanks after it is inert, and one after an opcode is not; a string keeps its letter
case, its escaped quote and a single slash. -/
theorem loaded_lines_have_shape_of_labels :
    let source := "@Loop_1 \t\r\njump @loop_1\nmov 'a/\\'B' out // // c\n \u2003//"
    let p := (Program.load source).toOption.getD default
    Program.load source = .ok p ∧
    (∃ l, p.line? 0 = some l ∧ l.Shape "@Loop_1 \t\r".toList ∧ l.isInert = true) ∧
    (∃ l, p.line? 2 = some l ∧ l.Shape "mov 'a/\\'B' out // // c".toList ∧
      l.operands.head?.map Token.text = some "a/\\'B") ∧
    p.following 2 = 1 := by
  intro source p
  have h : Program.load source = .ok p := by decide +kernel
  obtain ⟨-, hlines, -⟩ := loaded_lines_have_shape h
  obtain ⟨l, hl, hshape⟩ := hlines 0 "@Loop_1 \t\r".toList (by decide +kernel)
  obtain ⟨k, hk, hquoted⟩ := hlines 2 "mov 'a/\\'B' out // // c".toList (by decide +kernel)
  refine ⟨h, ⟨l, hl, hshape, ?_⟩, ⟨k, hk, hquoted, ?_⟩, by decide +kernel⟩
  · have hinert : (p.line? 0).map Line.isInert = some true := by decide +kernel
    rw [hl] at hinert
    exact Option.some.inj hinert
  · have htext : (p.line? 2).map (fun l => l.operands.head?.map Token.text) =
        some (some "a/\\'B") := by decide +kernel
    rw [hk] at htext
    exact Option.some.inj htext

end LineAsm
