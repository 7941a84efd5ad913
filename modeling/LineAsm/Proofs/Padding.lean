import LineAsm.Proofs.Insertion
import LineAsm.Proofs.Rendering

set_option autoImplicit false

/-!
# Blanks at the end of a line

Blanks at the end of a line make no difference. No pattern but that of a label goes on over a blank
it does not find in the text without them, so a text is scanned alike with blanks after it until
nothing but blanks is left, or until no pattern matches; the fault then shows what is left without
the blanks at its end. In particular a carriage return before each newline is of no account.
-/

namespace LineAsm

section

variable {pad : List Char} (hpad : pad.all Text.isBlank = true)
include hpad

theorem not_mem_of_all_isBlank {c : Char} (hc : Text.isBlank c = false) : c ∉ pad := by
  intro hmem
  rw [List.all_eq_true.1 hpad c hmem] at hc
  cases hc

theorem span_append_blanks {p : Char → Bool} (hp : ∀ c, Text.isBlank c = true → p c = false)
    (cs : List Char) :
    (cs ++ pad).takeWhile p = cs.takeWhile p ∧
      (cs ++ pad).dropWhile p = cs.dropWhile p ++ pad := by
  induction cs with
  | nil =>
    cases pad with
    | nil => exact ⟨rfl, rfl⟩
    | cons c pad =>
      have hc : ¬ p c = true := by
        rw [hp c (List.all_eq_true.1 hpad c List.mem_cons_self)]
        exact Bool.false_ne_true
      exact ⟨List.takeWhile_cons_of_neg hc, List.dropWhile_cons_of_neg hc⟩
  | cons c cs ih =>
    by_cases hc : p c = true
    · rw [List.cons_append, List.takeWhile_cons_of_pos hc, List.takeWhile_cons_of_pos hc,
        List.dropWhile_cons_of_pos hc, List.dropWhile_cons_of_pos hc, ih.1, ih.2]
      exact ⟨rfl, rfl⟩
    · rw [List.cons_append, List.takeWhile_cons_of_neg hc, List.takeWhile_cons_of_neg hc,
        List.dropWhile_cons_of_neg hc, List.dropWhile_cons_of_neg hc]
      exact ⟨rfl, rfl⟩

theorem Text.trimEnd_append_blanks (cs : List Char) : trimEnd (cs ++ pad) = trimEnd cs := by
  have hreverse : ∀ c ∈ pad.reverse, isBlank c = true :=
    fun c hc => List.all_eq_true.1 hpad c (List.mem_reverse.1 hc)
  rw [trimEnd, List.reverse_append, List.dropWhile_append_of_pos hreverse, trimEnd]

theorem Line.beforeComment_append_blanks (cs : List Char) :
    ∃ tail : List Char, tail.all Text.isBlank = true ∧
      beforeComment (cs ++ pad) = beforeComment cs ++ tail := by
  induction cs using beforeComment.induct with
  | case1 cs => exact ⟨[], rfl, rfl⟩
  | case2 c cs h ih =>
    obtain ⟨tail, htail, heq⟩ := ih
    have hcs : c = '/' → cs.head? ≠ some '/' := by
      rintro rfl hhead
      obtain ⟨rest, rfl⟩ := List.head?_eq_some_iff.1 hhead
      exact h rest rfl rfl
    have happend : c = '/' → (cs ++ pad).head? ≠ some '/' := by
      intro hc hhead
      rw [List.head?_append] at hhead
      cases hnone : cs.head? with
      | some d =>
        rw [hnone] at hhead
        exact hcs hc (hnone.trans hhead)
      | none =>
        rw [hnone] at hhead
        exact not_mem_of_all_isBlank hpad (c := '/') rfl (List.mem_of_head? hhead)
    refine ⟨tail, htail, ?_⟩
    rw [List.cons_append, beforeComment_cons happend, beforeComment_cons hcs, heq,
      List.cons_append]
  | case3 =>
    refine ⟨pad, hpad, ?_⟩
    rw [List.nil_append, beforeComment, List.nil_append, beforeComment_eq_self_iff]
    intro hslashes
    exact not_mem_of_all_isBlank hpad (c := '/') rfl (hslashes.subset List.mem_cons_self)

end

theorem isAlphanum_of_isBlank {c : Char} (hc : Text.isBlank c = true) : c.isAlphanum = false := by
  rw [← Bool.not_eq_true]
  intro h
  rw [Munch.isBlank_of_isAlphanum h] at hc
  cases hc

theorem isWordChar_of_isBlank (c : Char) (hc : Text.isBlank c = true) : isWordChar c = false := by
  rw [isWordChar, isAlphanum_of_isBlank hc, Bool.false_or, beq_eq_false_iff_ne]
  rintro rfl
  cases hc

theorem isDigit_of_isBlank (c : Char) (hc : Text.isBlank c = true) : c.isDigit = false :=
  (Bool.or_eq_false_iff.1 (isAlphanum_of_isBlank hc)).2

namespace Pattern

variable {pad : List Char} (hpad : pad.all Text.isBlank = true)
include hpad

theorem splitPoint_append_blanks (cs : List Char) :
    splitPoint (cs ++ pad) = ((splitPoint cs).1, (splitPoint cs).2 ++ pad) := by
  cases cs with
  | nil =>
    cases pad with
    | nil => rfl
    | cons c pad =>
      have hc : c ≠ '.' := by
        rintro rfl
        cases List.all_eq_true.1 hpad '.' List.mem_cons_self
      simp [splitPoint, hc]
  | cons c cs =>
    by_cases hc : c = '.'
    · subst hc
      obtain ⟨htake, hdrop⟩ := span_append_blanks hpad isDigit_of_isBlank cs
      simp only [List.cons_append, splitPoint, htake, hdrop]
    · simp [splitPoint, hc]

theorem match?_numeral_append_blanks (c : Char) (cs : List Char) :
    match? .numeral ((c :: cs) ++ pad) =
      (match? .numeral (c :: cs)).map fun m => ⟨m.text, m.rest ++ pad⟩ := by
  have hminus : splitMinus ((c :: cs) ++ pad) =
      ((splitMinus (c :: cs)).1, (splitMinus (c :: cs)).2 ++ pad) := by
    by_cases hc : c = '-'
    · subst hc
      rfl
    · simp [splitMinus, hc]
  have hspan := span_append_blanks hpad isDigit_of_isBlank (splitMinus (c :: cs)).2
  simp only [match?, hminus, hspan.1, hspan.2, splitPoint_append_blanks hpad]
  split <;> rfl

theorem closing?_append_blanks {quote : Char} (hq : Text.isBlank quote = false)
    (previous : Option Char) (cs : List Char) :
    closing? quote previous (cs ++ pad) =
      (closing? quote previous cs).map fun m => ⟨m.text, m.rest ++ pad⟩ := by
  have hnone (previous : Option Char) : closing? quote previous pad = none := by
    rw [Option.eq_none_iff_forall_ne_some]
    intro m hm
    have hmem : quote ∈ pad := by
      rw [(closing?_eq_some hm).1]
      exact List.mem_append_right _ List.mem_cons_self
    exact not_mem_of_all_isBlank hpad hq hmem
  rw [closing?_append, hnone]
  cases closing? quote previous cs <;> rfl

/-- Blanks at the end are left to scan, unless a label takes them. -/
theorem match?_append_blanks {p : Pattern} {cs : List Char} (hp : Munch.pattern? cs = some p) :
    ∃ tail : List Char, tail.all Text.isBlank = true ∧
      p.match? (cs ++ pad) = (p.match? cs).map fun m => ⟨m.text, m.rest ++ tail⟩ := by
  have hspan := span_append_blanks hpad isWordChar_of_isBlank
  cases cs with
  | nil => cases hp
  | cons c cs =>
    rw [Munch.pattern?] at hp
    split_ifs at hp with hblank halpha hdigit hquote hlabel <;> cases hp
    · refine ⟨pad, hpad, ?_⟩
      simp only [List.cons_append, match?, hblank, if_true, Option.map_some]
    · refine ⟨pad, hpad, ?_⟩
      have hword := Munch.all_headWord (c :: cs)
      have hhead : Munch.headWord ((c :: cs) ++ pad) = Munch.headWord (c :: cs) := by
        rw [Munch.headWord, (hspan _).1, Munch.headWord]
      rw [Munch.match?_word hword, Munch.match?_word hword, hhead, if_pos rfl, if_pos rfl,
        (hspan _).1, (hspan _).2]
      rfl
    · exact ⟨pad, hpad, match?_numeral_append_blanks hpad c cs⟩
    · refine ⟨pad, hpad, ?_⟩
      have hq : Text.isBlank c = false := by simpa using hblank
      simp only [List.cons_append, match?, if_true]
      exact closing?_append_blanks hpad hq none cs
    · refine ⟨[], rfl, ?_⟩
      obtain rfl := eq_of_beq hlabel
      rw [List.cons_append, Munch.match?_label, Munch.match?_label, (hspan _).1, (hspan _).2,
        List.all_append, hpad, Bool.and_true]
      split <;> rfl

end Pattern

namespace Munch

variable {pad : List Char} (hpad : pad.all Text.isBlank = true)
include hpad

theorem pattern?_append_blanks (c : Char) (cs : List Char) :
    pattern? ((c :: cs) ++ pad) = pattern? (c :: cs) := by
  have hhead : headWord ((c :: cs) ++ pad) = headWord (c :: cs) := by
    rw [headWord, (span_append_blanks hpad isWordChar_of_isBlank _).1, headWord]
  rw [List.cons_append] at hhead ⊢
  rw [pattern?, pattern?, hhead]

theorem token?_append_blanks (c : Char) (cs : List Char) :
    ∃ tail : List Char, tail.all Text.isBlank = true ∧
      token? ((c :: cs) ++ pad) =
        (token? (c :: cs)).map fun x => (x.1, ⟨x.2.text, x.2.rest ++ tail⟩) := by
  rw [token?_eq, token?_eq, pattern?_append_blanks hpad]
  cases hp : pattern? (c :: cs) with
  | none => exact ⟨[], rfl, rfl⟩
  | some p =>
    obtain ⟨tail, htail, heq⟩ := Pattern.match?_append_blanks hpad hp
    refine ⟨tail, htail, ?_⟩
    rw [Option.bind_some, Option.bind_some, heq]
    cases Pattern.table.lookup p with
    | none => rfl
    | some kind => cases p.match? (c :: cs) <;> rfl

/-- With blanks after it a text has the same tokens, or the same rest with blanks after it. -/
theorem tokens_append_blanks (cs : List Char) :
    ∃ tail : List Char, tail.all Text.isBlank = true ∧
      tokens (cs ++ pad) = (tokens cs).mapError (· ++ tail) := by
  induction hn : cs.length using Nat.strong_induction_on generalizing cs pad with
  | _ n ih =>
    subst hn
    cases cs with
    | nil =>
      refine ⟨[], rfl, ?_⟩
      rw [List.nil_append, tokens_of_all_isBlank hpad, tokens, if_pos rfl]
      rfl
    | cons c cs =>
      obtain ⟨tail, htail, htoken⟩ := token?_append_blanks hpad c cs
      rw [List.cons_append] at htoken ⊢
      rw [tokens_cons, tokens_cons, htoken]
      cases h : token? (c :: cs) with
      | none => exact ⟨pad, hpad, rfl⟩
      | some x =>
        obtain ⟨kind, m⟩ := x
        obtain ⟨tail, htail, hrest⟩ := ih m.rest.length (length_rest_lt h) htail m.rest rfl
        refine ⟨tail, htail, ?_⟩
        cases kind with
        | none => exact hrest
        | some kind =>
          dsimp only [Option.map_some]
          rw [hrest]
          cases tokens m.rest <;> rfl

end Munch

theorem Line.read_append_blanks {pad : List Char} (hpad : pad.all Text.isBlank = true)
    (index : Nat) (text : List Char) : read index (text ++ pad) = read index text := by
  obtain ⟨tail, htail, hcomment⟩ := beforeComment_append_blanks hpad text
  obtain ⟨tail, htail, htokens⟩ := Munch.tokens_append_blanks htail (beforeComment text)
  unfold read readWith
  rw [scan_eq_tokens, scan_eq_tokens, hcomment, htokens]
  cases Munch.tokens (beforeComment text) with
  | ok found => rfl
  | error rest =>
    dsimp only [Except.mapError]
    rw [Text.trimEnd_append_blanks htail]

/-! ### Programs -/

def Line.PaddedTo (text padded : List Char) : Prop :=
  ∃ pad : List Char, pad.all Text.isBlank = true ∧ padded = text ++ pad

/-- The source with a text of its own after each line. -/
def Text.padLines (pad : Nat → List Char) (source : String) : String :=
  .ofList (['\n'].intercalate
    ((source.toList.splitOn '\n').mapIdx fun i text => text ++ pad i))

/-- The source with a carriage return before each newline. -/
def Text.withReturns (source : String) : String :=
  .ofList (source.toList.flatMap fun c => if c = '\n' then ['\r', '\n'] else [c])

namespace Program

theorem dropReturn_paddedTo (text : List Char) : Line.PaddedTo (dropReturn text) text := by
  unfold dropReturn
  split
  · rename_i h
    refine ⟨['\r'], rfl, ?_⟩
    rw [List.dropLast_append_getLast? '\r' h]
  · exact ⟨[], rfl, (List.append_nil text).symm⟩

theorem read_dropReturn (index : Nat) (text : List Char) :
    Line.read index (dropReturn text) = Line.read index text := by
  obtain ⟨pad, hpad, heq⟩ := dropReturn_paddedTo text
  conv_rhs => rw [heq]
  exact (Line.read_append_blanks hpad index _).symm

theorem read_of_paddedTo {text padded : List Char} (h : Line.PaddedTo text padded)
    (index : Nat) :
    Line.read index (dropReturn padded) = Line.read index (dropReturn text) := by
  obtain ⟨pad, hpad, rfl⟩ := h
  rw [read_dropReturn, read_dropReturn, Line.read_append_blanks hpad]

theorem readLines_of_paddedTo {texts padded : List (List Char)}
    (h : List.Forall₂ Line.PaddedTo texts padded) (index : Nat) :
    readLines index padded = readLines index texts := by
  induction h generalizing index with
  | nil => rfl
  | cons htext _ ih => rw [readLines, readLines, read_of_paddedTo htext, ih]

theorem load_of_paddedTo {source padded : String}
    (h : List.Forall₂ Line.PaddedTo (splitLines source.toList) (splitLines padded.toList)) :
    load padded = load source := by
  rw [load, load, readLines_of_paddedTo h]

theorem splitLines_padLines {pad : Nat → List Char} (hpad : ∀ i, '\n' ∉ pad i)
    (source : String) :
    splitLines (Text.padLines pad source).toList =
      (splitLines source.toList).mapIdx fun i text => text ++ pad i := by
  rw [Text.padLines, String.toList_ofList, ← splitLines_eq_splitOn source.toList,
    splitLines_eq_splitOn (['\n'].intercalate _)]
  apply List.splitOn_intercalate
  · intro padded hmem
    obtain ⟨i, hi, rfl⟩ := List.mem_mapIdx.1 hmem
    rw [List.mem_append, not_or]
    exact ⟨newline_not_mem_splitLines (List.getElem_mem hi), hpad i⟩
  · rw [ne_eq, List.mapIdx_eq_nil_iff]
    exact splitLines_ne_nil _

theorem paddedTo_mapIdx {pad : Nat → List Char} (hpad : ∀ i, (pad i).all Text.isBlank = true)
    (texts : List (List Char)) :
    List.Forall₂ Line.PaddedTo texts (texts.mapIdx fun i text => text ++ pad i) := by
  induction texts generalizing pad with
  | nil => exact .nil
  | cons text texts ih =>
    rw [List.mapIdx_cons]
    exact .cons ⟨pad 0, hpad 0, rfl⟩ (ih fun i => hpad (i + 1))

theorem paddedTo_withReturns (cs : List Char) :
    List.Forall₂ Line.PaddedTo (splitLines cs)
      (splitLines (cs.flatMap fun c => if c = '\n' then ['\r', '\n'] else [c])) := by
  induction cs with
  | nil => exact .cons ⟨[], rfl, rfl⟩ .nil
  | cons c cs ih =>
    rw [List.flatMap_cons, splitLines]
    by_cases hc : c = '\n'
    · rw [if_pos hc, if_pos hc]
      exact .cons ⟨['\r'], rfl, rfl⟩ ih
    · rw [if_neg hc, if_neg hc, List.singleton_append, splitLines, if_neg hc]
      generalize splitLines cs = texts at ih ⊢
      generalize splitLines _ = padded at ih ⊢
      cases ih with
      | nil => exact .cons ⟨[], rfl, rfl⟩ .nil
      | cons htext hrest =>
        obtain ⟨pad, hpad, rfl⟩ := htext
        exact .cons ⟨pad, hpad, rfl⟩ hrest

end Program

/-- Loading a source gives the same program, or the same fault, whatever blanks stand at the ends of
its lines, and whether lines end in a newline or in a carriage return and a newline. -/
theorem load_ignores_trailing_blanks (source : String) :
    (∀ pad : Nat → List Char, (∀ i, (pad i).all Text.isBlank = true ∧ '\n' ∉ pad i) →
      Program.load (Text.padLines pad source) = Program.load source) ∧
    Program.load (Text.withReturns source) = Program.load source := by
  refine ⟨fun pad hpad => ?_, ?_⟩
  · apply Program.load_of_paddedTo
    rw [Program.splitLines_padLines fun i => (hpad i).2]
    exact Program.paddedTo_mapIdx (fun i => (hpad i).1) _
  · apply Program.load_of_paddedTo
    rw [Text.withReturns, String.toList_ofList]
    exact Program.paddedTo_withReturns source.toList

/-- The last line has an open quote; the fault shows it without the blanks after it. -/
theorem load_ignores_trailing_blanks_after_quote :
    let source := "add acc 1. // one\n@a\njump @a\nmov \"b out"
    let pad := fun i => List.replicate i '\u2003' ++ ['\t', '\r', '\r']
    (∀ i, (pad i).all Text.isBlank = true ∧ '\n' ∉ pad i) ∧
    Program.load (Text.padLines pad source) = Program.load source ∧
    Program.load source = .error ⟨.syntaxError, some 3, "UNEXPECTED TOKEN \"b out"⟩ := by
  intro source pad
  have hpad : ∀ i, (pad i).all Text.isBlank = true ∧ '\n' ∉ pad i := by
    intro i
    have hblank : ∀ c ∈ List.replicate i '\u2003', Text.isBlank c = true := by
      intro c hc
      rw [List.eq_of_mem_replicate hc]
      rfl
    refine ⟨?_, ?_⟩
    · rw [List.all_append, List.all_eq_true.2 hblank]
      rfl
    · rw [List.mem_append, List.mem_replicate]
      simp
  exact ⟨hpad, (load_ignores_trailing_blanks source).1 pad hpad, by decide +kernel⟩

end LineAsm
