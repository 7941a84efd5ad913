import LineAsm.Machine.Operand
import LineAsm.Proofs.Numerals
import LineAsm.Proofs.Rendering

set_option autoImplicit false

/-!
# Three ways to write a number

A number can stand in a program as a literal, in a value as a text, and in a typed line. Literals
have the narrowest grammar, typed lines may have blanks on both sides, and texts may go on after the
number. Still all three mean the same number, or none, wherever the same characters are written.
-/

namespace LineAsm

open Text (StopsAt)

/-! ### Literals -/

theorem Munch.exists_writes_of_numeral {t : List Char} (h : numeral.rmatch t = true) :
    ∃ sign negative body d, Sign sign negative ∧ Decimal.Writes body d ∧ t = sign ++ body := by
  obtain ⟨minus, ints, fraction, hn, rfl⟩ := rmatch_numeral.1 h
  obtain ⟨negative, hs⟩ : ∃ negative, Sign minus negative := by
    rcases hn.sign with rfl | rfl
    · exact ⟨false, .absent⟩
    · exact ⟨true, .minus⟩
  obtain ⟨ds, hf⟩ : ∃ ds, Decimal.Fraction fraction ds := by
    rcases hn.point with rfl | ⟨ds, hds, rfl⟩
    · exact ⟨[], .absent⟩
    · exact ⟨ds, .point hds⟩
  have hwrites := Decimal.Writes.intro hn.ints hf (.inl hn.ne_nil) .absent
  rw [List.append_nil] at hwrites
  exact ⟨minus, negative, _, _, hs, hwrites, rfl⟩

namespace Line

theorem rmatch_of_mem_tokens {index : Nat} {text : List Char} {l : Line}
    (h : read index text = .ok l) {t : Token} (ht : t ∈ l.tokens) (hk : t.kind = .number) :
    Munch.numeral.rmatch t.text.toList = true := by
  obtain ⟨found, hscan, -, rfl⟩ := read_eq_ok_iff.1 h
  by_cases hne : found = []
  · subst hne
    rw [List.mem_singleton.1 ht] at hk
    cases hk
  · rw [tokens_ofFound hne] at ht
    obtain ⟨⟨kind, spelling⟩, hmem, rfl⟩ := List.mem_map.1 ht
    have hlexeme := (lexemes_of_scan hscan).1.lexeme hmem
    rw [token_eq] at hk ⊢
    dsimp only at hk hlexeme
    subst hk
    cases hlexeme with
    | word hw _ => exact absurd rfl (keywords_kind _ hw).2.1
    | number hmatch =>
      have hkept : kept (.number, spelling) = spelling := Munch.map_toUpper_of_rmatch hmatch
      rwa [hkept, String.toList_ofList]

end Line

theorem Program.rmatch_of_load {source : String} {p : Program} (h : load source = .ok p) {l : Line}
    (hl : l ∈ p.lines) {t : Token} (ht : t ∈ l.tokens) (hk : t.kind = .number) :
    Munch.numeral.rmatch t.text.toList = true := by
  obtain ⟨ls, hls, rfl⟩ := exists_lines_of_load h
  obtain ⟨i, hi⟩ := List.mem_iff_getElem?.1 (List.mem_toArray.1 hl)
  obtain ⟨text, -, hread⟩ := (getElem?_readLines hls).1 hi
  exact Line.rmatch_of_mem_tokens hread ht hk

/-! ### Typed lines -/

theorem Text.exists_trim (cs : List Char) :
    ∃ before after, before.all isBlank = true ∧ after.all isBlank = true ∧
      cs = before ++ (trim cs ++ after) := by
  refine ⟨cs.takeWhile isBlank, ((trimStart cs).reverse.takeWhile isBlank).reverse,
    List.all_takeWhile, ?_, ?_⟩
  · rw [List.all_reverse, List.all_takeWhile]
  · rw [trim, trimEnd, ← List.reverse_append, List.takeWhile_append_dropWhile,
      List.reverse_reverse, trimStart, List.takeWhile_append_dropWhile]

theorem Decimal.continues_of_isBlank {c : Char} (h : Text.isBlank c = true) :
    continues c = false := by
  rw [continues, Bool.or_eq_false_iff, Bool.or_eq_false_iff, beq_eq_false_iff_ne,
    beq_eq_false_iff_ne]
  refine ⟨⟨?_, ?_⟩, ?_⟩
  · rw [← Bool.not_eq_true]
    intro hc
    rw [Number.isBlank_of_continuesMantissa c hc] at h
    cases h
  · rintro rfl
    cases h
  · rintro rfl
    cases h

theorem Decimal.stopsAt_of_all_isBlank {r : List Char} (h : r.all Text.isBlank = true) :
    StopsAt continues r := by
  cases r with
  | nil => rfl
  | cons c r =>
    rw [List.all_cons, Bool.and_eq_true] at h
    exact continues_of_isBlank h.1

/-- A finite number that blanks surround is also what a text of the same characters starts with. -/
theorem Number.ofLeading?_of_trim {cs : List Char} {n : Number}
    (h : ofText? (Text.trim cs) = some n) (hn : n.isFinite = true) : ofLeading? cs = some n := by
  obtain ⟨before, after, hbefore, hafter, hcs⟩ := Text.exists_trim cs
  obtain ⟨sign, negative, body, hs, htrim, ⟨d, hd, rfl⟩ | ⟨-, hinf⟩⟩ := ofText?_cases h
  · rw [htrim, List.append_assoc] at hcs
    rw [hcs]
    exact ofLeading?_append hbefore hs hd (Decimal.stopsAt_of_all_isBlank hafter)
  · rw [hinf] at hn
    cases hn

namespace Value

theorem toOption_toNumber (v : Value) : v.toNumber.toOption = v.number? := by
  unfold toNumber
  cases v.number? <;> rfl

theorem toNumber_ofTyped (line : String) : (ofTyped line).toNumber = (text line).toNumber := by
  unfold ofTyped
  cases h : (Number.ofText? (Text.trim line.toList)).filter Number.isFinite with
  | none => rfl
  | some n =>
    obtain ⟨hread, hn⟩ := Option.filter_eq_some_iff.1 h
    have hnumber : (number n).number? = some n := by simp [number?, hn]
    have htext : (text line).number? = some n := by
      simp [number?, Number.ofLeading?_of_trim hread hn, hn]
    simp only [toNumber, hnumber, htext]

end Value

/-- A literal of a program always reads as a number, so that no machine fails to read it; this is a
number for the machine exactly if the same characters as a text are one, and then the same. A typed
line has as its number, or as its fault, what the line has as a text. -/
theorem number_readers_agree :
    (∀ source p, Program.load source = .ok p → ∀ l ∈ p.lines, ∀ t ∈ l.tokens, t.kind = .number →
      ∃ n, Number.ofText? t.text.toList = some n ∧
        (∀ (δ : Type) [Device δ] (s : State δ), s.read (some t) = .value (.number n) s) ∧
        (Value.number n).toNumber.toOption = (Value.text t.text).toNumber.toOption) ∧
    ∀ line, (Value.ofTyped line).toNumber = (Value.text line).toNumber := by
  refine ⟨?_, Value.toNumber_ofTyped⟩
  intro source p h l hl t ht hk
  obtain ⟨sign, negative, body, d, hs, hd, htext⟩ :=
    Munch.exists_writes_of_numeral (Program.rmatch_of_load h hl ht hk)
  have hread : Number.ofText? t.text.toList = some (d.toNumber negative) :=
    htext ▸ Number.ofText?_append hs hd
  have hleading : Number.ofLeading? t.text.toList = some (d.toNumber negative) :=
    htext ▸ Number.ofLeading?_numeral hs hd
  refine ⟨_, hread, ?_, ?_⟩
  · intro δ _ s
    simp only [State.read, hk, hread]
  · rw [Value.toOption_toNumber, Value.toOption_toNumber]
    simp only [Value.number?, hleading]

/-- A literal with a bare point, as a text with something after it, and typed between blanks. -/
theorem number_readers_agree_on_bare_point :
    let p := (Program.load "mov -7. acc").toOption.getD default
    let t : Token := ⟨.number, "-7.", 0⟩
    Program.load "mov -7. acc" = .ok p ∧ t ∈ (p.line 0).operands ∧
      (∃ n, Number.ofText? "-7.".toList = some n ∧
        (Value.number n).toNumber.toOption = (Value.text "-7.").toNumber.toOption) ∧
      (Value.ofTyped "\t-7. ").toNumber = (Value.text "\t-7. ").toNumber := by
  intro p t
  have hp : Program.load "mov -7. acc" = .ok p := by decide +kernel
  have hl : p.line 0 ∈ p.lines := by decide +kernel
  have ht : t ∈ (p.line 0).operands := by decide +kernel
  refine ⟨hp, ht, ?_, number_readers_agree.2 _⟩
  obtain ⟨n, hn, -, hsame⟩ :=
    number_readers_agree.1 _ p hp _ hl t (List.mem_cons_of_mem _ ht) rfl
  exact ⟨n, hn, hsame⟩

end LineAsm
