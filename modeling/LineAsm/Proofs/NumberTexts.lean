import LineAsm.Proofs.Limits
import LineAsm.Proofs.Resting
import LineAsm.Proofs.ShortestDecimals
import LineAsm.Proofs.WholeNumbers

set_option autoImplicit false

/-!
# Numbers as texts

A finite number that is displayed and read again is the same number, except that the text of a zero
has no sign. So texts of finite numbers are equal exactly if the numbers compare as equal, and it
does not matter to a machine whether it tests numbers or their texts for equality, or whether a
number has been a text in between. The texts of infinities and of `nan` are numbers as little as
these themselves.
-/

namespace LineAsm

namespace Munch

/-- Digits, with a point only between digits, after a minus or nothing. -/
def displayed : RegularExpression Char :=
  (1 + .char '-') * (digits * (1 + .char '.' * digits))

theorem rmatch_displayed (negative : Bool) {t : List Char} {d : Decimal}
    (h : Decimal.Places t d) : displayed.rmatch (Number.minus negative t) = true := by
  have hplaces : t ∈ (digits * (1 + .char '.' * digits)).matches' := by
    simp only [RegularExpression.matches'_add, RegularExpression.matches'_mul, Language.mem_add,
      Language.mem_mul, mem_digits_of_ne_nil]
    cases h with
    | whole hne hds => exact ⟨t, ⟨hne, hds⟩, [], .inl rfl, List.append_nil t⟩
    | point hi hints hf hfraction =>
      exact ⟨_, ⟨hi, hints⟩, _, .inr ⟨['.'], rfl, _, ⟨hf, hfraction⟩, rfl⟩, rfl⟩
  rw [RegularExpression.rmatch_iff_matches', displayed, RegularExpression.matches'_mul,
    Language.mem_mul]
  cases negative with
  | false => exact ⟨[], .inl rfl, t, hplaces, rfl⟩
  | true => exact ⟨['-'], .inr rfl, t, hplaces, rfl⟩

end Munch

/-! ### Display and reading -/

namespace Number

open Text (StopsAt)

/-- The number without the sign of a zero. -/
def canonical : Number → Number
  | .finite s m => if m.units = 0 then .zero else .finite s m
  | n => n

theorem canonical_finite (s : Bool) (m : Magnitude) :
    ∃ t, (finite s m).canonical = .finite t m ∧ signed t m.units = signed s m.units := by
  by_cases hz : m.units = 0
  · obtain rfl : m = .zero := Magnitude.ext_units hz
    exact ⟨false, rfl, by cases s <;> rfl⟩
  · exact ⟨s, if_neg hz, rfl⟩

theorem isFinite_canonical (n : Number) : n.canonical.isFinite = n.isFinite := by
  cases n with
  | nan => rfl
  | infinite s => rfl
  | finite s m =>
    obtain ⟨t, ht, -⟩ := canonical_finite s m
    rw [ht]
    rfl

theorem compare?_canonical {n : Number} (h : n.isFinite = true) :
    n.canonical.compare? n = some .eq := by
  cases n with
  | nan | infinite s => cases h
  | finite s m =>
    obtain ⟨t, ht, hsigned⟩ := canonical_finite s m
    rw [ht, compare?, hsigned, compare_eq_iff_eq.2 rfl]

theorem display_canonical (n : Number) : n.canonical.display = n.display := by
  cases n with
  | nan => rfl
  | infinite s => rfl
  | finite s m =>
    by_cases hz : m.units = 0
    · simp only [canonical, display, if_pos hz]
      rfl
    · simp only [canonical, if_neg hz]

theorem signed_inj {s t : Bool} {m n : Nat} (h : signed s m = signed t n) :
    m = n ∧ (m ≠ 0 → s = t) := by
  have habs := congrArg Int.natAbs h
  rw [natAbs_signed, natAbs_signed] at habs
  refine ⟨habs, fun hne => ?_⟩
  cases s <;> cases t <;> simp [signed] at h ⊢ <;> omega

theorem canonical_eq_iff {a b : Number} (ha : a.isFinite = true) (hb : b.isFinite = true) :
    a.canonical = b.canonical ↔ a.compare? b = some .eq := by
  cases a with
  | nan | infinite s => cases ha
  | finite s m =>
  cases b with
  | nan | infinite t => cases hb
  | finite t n =>
    rw [compare?, Option.some.injEq, compare_eq_iff_eq]
    constructor
    · intro h
      obtain ⟨s', hs, hm⟩ := canonical_finite s m
      obtain ⟨t', ht, hn⟩ := canonical_finite t n
      rw [hs, ht] at h
      cases h
      rw [← hm, hn]
    · intro h
      obtain ⟨hunits, hsign⟩ := signed_inj h
      obtain rfl : m = n := Magnitude.ext_units hunits
      by_cases hm : m.units = 0
      · rw [canonical, if_pos hm, canonical, if_pos hm]
      · rw [hsign hm]

theorem sign_minus (negative : Bool) : Sign (minus negative []) negative := by
  cases negative with
  | false => exact .absent
  | true => exact .minus

theorem minus_eq_append (negative : Bool) (cs : List Char) :
    minus negative cs = minus negative [] ++ cs := by
  cases negative <;> rfl

/-- A finite number is displayed as a numeral that denotes it, up to the sign of a zero. -/
theorem exists_places_of_isFinite {n : Number} (h : n.isFinite = true) :
    ∃ negative t d, Decimal.Places t d ∧ n.display.toList = minus negative t ∧
      d.toNumber negative = n.canonical := by
  cases n with
  | nan | infinite s => cases h
  | finite s m =>
    by_cases hz : m.units = 0
    · refine ⟨false, ['0'], _, .whole (List.cons_ne_nil _ _) rfl, ?_, ?_⟩
      · simp only [display, if_pos hz]
        rfl
      · simp only [canonical, if_pos hz]
        rfl
    · obtain ⟨d, hd, hnumber⟩ := Magnitude.places_shortest hz
      refine ⟨s, _, d, hd, ?_, ?_⟩
      · rw [display, if_neg hz, String.toList_ofList]
      · rw [canonical, if_neg hz, hnumber]

theorem ofText?_display {n : Number} (h : n.isFinite = true) :
    ofText? n.display.toList = some n.canonical := by
  obtain ⟨negative, t, d, hd, htext, hnumber⟩ := exists_places_of_isFinite h
  rw [htext, minus_eq_append, ofText?_append (sign_minus negative) hd.writes, hnumber]

theorem ofLeading?_display {n : Number} (h : n.isFinite = true) :
    ofLeading? n.display.toList = some n.canonical := by
  obtain ⟨negative, t, d, hd, htext, hnumber⟩ := exists_places_of_isFinite h
  rw [htext, minus_eq_append, ofLeading?_numeral (sign_minus negative) hd.writes, hnumber]

theorem split?_display {n : Number} (h : n.isFinite = true) :
    ∃ d, Decimal.split? (splitSign (Text.trimStart n.display.toList)).2 = some (d, []) := by
  obtain ⟨negative, t, d, hd, htext, -⟩ := exists_places_of_isFinite h
  have hblanks : ([] : List Char).all Text.isBlank = true := rfl
  have hsign := splitSign_trimStart_append hblanks (sign_minus negative) hd.writes []
  have hrest : StopsAt Decimal.continues [] := rfl
  have hsplit := Decimal.split?_append hd.writes hrest
  rw [List.append_nil] at hsign hsplit
  rw [List.nil_append] at hsign
  refine ⟨d, ?_⟩
  rw [htext, minus_eq_append, hsign, hsplit]

theorem display_eq_iff {a b : Number} (ha : a.isFinite = true) (hb : b.isFinite = true) :
    a.display = b.display ↔ a.compare? b = some .eq := by
  rw [← canonical_eq_iff ha hb]
  constructor
  · intro h
    have hread := ofText?_display ha
    rw [h, ofText?_display hb] at hread
    exact (Option.some.inj hread).symm
  · intro h
    rw [← display_canonical a, h, display_canonical]

end Number

namespace Value

theorem number?_number (n : Number) :
    (number n).number? = if n.isFinite then some n else none := by
  simp only [number?, Option.filter_some]

theorem number?_display (n : Number) :
    (text n.display).number? = if n.isFinite then some n.canonical else none := by
  cases hn : n.isFinite with
  | true =>
    simp only [number?, Number.ofLeading?_display hn, Option.filter_some, Number.isFinite_canonical,
      hn]
  | false =>
    -- `NaN` starts no numeral, and `Infinity` is read, but as an infinity
    cases n with
    | nan => rfl
    | infinite s => cases s <;> rfl
    | finite s m => cases hn

theorem toNumber_display {n : Number} (h : n.isFinite = true) :
    (text n.display).toNumber = .ok n.canonical := by
  simp only [toNumber, number?_display, h, if_true]

theorem isNumber_number (n : Number) : (number n).isNumber = n.isFinite := by
  rw [isNumber, number?_number]
  cases n.isFinite <;> rfl

theorem isNumber_display (n : Number) : (text n.display).isNumber = n.isFinite := by
  rw [isNumber, number?_display]
  cases n.isFinite <;> rfl

end Value

/-- Equality of finite numbers and of their texts is the same test. -/
theorem Comparison.texts_display {c : Comparison} (hc : c = .equal ∨ c = .unequal) {a b : Number}
    (ha : a.isFinite = true) (hb : b.isFinite = true) :
    c.texts a.display b.display = c.numbers a b := by
  have hiff := Number.display_eq_iff ha hb
  obtain ⟨o, ho⟩ : ∃ o, a.compare? b = some o := by
    cases a with
    | nan | infinite s => cases ha
    | finite s m =>
      cases b with
      | nan | infinite t => cases hb
      | finite t n => exact ⟨_, rfl⟩
  rw [ho, Option.some.injEq] at hiff
  simp only [texts, numbers, ho]
  by_cases heq : a.display = b.display
  · rw [if_neg (heq ▸ String.lt_irrefl _), if_pos heq, hiff.1 heq]
  · -- which of two different texts comes first is no matter to a test of equality
    have hne : (o == .eq) = false := beq_eq_false_iff_ne.2 (mt hiff.2 heq)
    rw [if_neg heq]
    rcases hc with rfl | rfl <;> split <;> simp [holdsOf, bne, hne]

/-! ### Machines -/

theorem Plan.residue_of_verdict? {op : Opcode} {vs : List Value} {test : Bool}
    (h : op.verdict? vs = some test) (labels : Labels) (a b : Option Token) :
    (ofOpcode labels op a b).residue vs = .done (.skipUnless test) := by
  unfold Opcode.verdict? at h
  split at h
  · rename_i c v w
    obtain ⟨x, hx, hmap⟩ := Option.bind_eq_some_iff.1 h
    obtain ⟨y, hy, rfl⟩ := Option.map_eq_some_iff.1 hmap
    simp only [ofOpcode, readNumber, residue, Value.toNumber, hx, hy]
  · cases h
    rfl
  · cases h
    rfl
  · cases h

theorem Line.operand_of_kinds {l : Line} {k a : TokenKind}
    (h : l.tokens.map Token.kind = [k, a]) :
    l.head.kind = k ∧ ∃ x, l.operands = [x] ∧ x.kind = a := by
  obtain ⟨head, operands⟩ := l
  match operands with
  | [] | _ :: _ :: _ => simp [tokens] at h
  | [x] =>
    simp only [tokens, List.map_cons, List.map_nil, List.cons.injEq, and_true] at h
    exact ⟨h.1, x, rfl, h.2⟩

theorem Registers.set_set (rs : Registers) (r : Register) (v w : Value) :
    (rs.set r v).set r w = rs.set r w := by
  simp only [set, Vector.set_set]

namespace State

theorem plan_of_opcode {δ : Type} {p : Program} {s : State δ} {op : Opcode}
    (hop : (p.line s.pc).head.kind = .opcode op) :
    s.plan p = .ofOpcode p.labels op (p.line s.pc).operands[0]? (p.line s.pc).operands[1]? := by
  simp only [plan, Line.plan, hop]

variable {δ : Type} [Device δ] {p : Program} {s : State δ} {c : Call}

theorem Consistent.call_of_done (h : s.Consistent p) (hc : s.admits c = true) {e : Effect}
    (hdone : (s.plan p).residue (s.gathered p c) = .done e)
    (hfault : e.fault? (s.reached p c) = none) :
    s.call p c = (.ok .stepped,
      { (e.apply p (s.reached p c)).settle with
        pc := p.following (e.apply p (s.reached p c)).pc }) := by
  obtain ⟨rs, r, ending, hlog, hl, he, heq⟩ := h.exists_ends hc
  have hr : r = .done e := by
    rw [← hdone, gathered, ← hlog, ← List.map_append]
    exact hl.residue_eq.symm
  subst hr
  rw [heq]
  cases he with
  | completed _ => rfl
  | refused hrefused =>
    rw [hfault] at hrefused
    cases hrefused

theorem Consistent.call_of_verdict? (h : s.Consistent p) (hc : s.admits c = true) {op : Opcode}
    (hop : (p.line s.pc).head.kind = .opcode op) {test : Bool}
    (hverdict : op.verdict? (s.gathered p c) = some test) :
    (s.call p c).1 = .ok .stepped ∧
      (s.call p c).2.pc = p.following (if test then s.pc else p.nextIndex s.pc) := by
  have hdone : (s.plan p).residue (s.gathered p c) = .done (.skipUnless test) := by
    rw [plan_of_opcode hop, Plan.residue_of_verdict? hverdict]
  rw [h.call_of_done hc hdone rfl]
  refine ⟨rfl, ?_⟩
  dsimp only
  rw [Effect.pc_skipUnless, (consumed_reached p s c).pc]

theorem Consistent.step_toNumber_of_toText (h : s.Consistent p) (hc : s.admits c = true)
    (hop : (p.line s.pc).head.kind = .opcode .toText) {v : Value} (hv : s.gathered p c = [v])
    {n : Number} (hn : (Value.text v.display).toNumber = .ok n)
    (hnext : (p.line (s.call p c).2.pc).tokens.map Token.kind =
      [.opcode .toNumber, .register .acc]) :
    (s.call p c).1 = .ok .stepped ∧ ((s.call p c).2.step p).1 = .ok .stepped ∧
      ((s.call p c).2.step p).2.registers = s.registers.set .acc (.number n) := by
  have hdone : (s.plan p).residue (s.gathered p c) =
      .done (.setRegister .acc (.text v.display)) := by
    rw [plan_of_opcode hop, hv]
    rfl
  have hcall := h.call_of_done hc hdone rfl
  -- the state between the two instructions
  generalize hu : (s.call p c).2 = u at hnext ⊢
  have hregisters : u.registers = s.registers.set .acc (.text v.display) := by
    rw [← hu, hcall, ← (consumed_reached p s c).registers]
    rfl
  have hstatus : u.status = .ready := by
    rw [← hu, hcall]
    exact reached_status hc
  have hlog : u.log = [] := by
    rw [← hu, hcall]
    rfl
  obtain ⟨hkind, x, hoperands, hx⟩ := Line.operand_of_kinds hnext
  have hplan : u.plan p = .readNumber (some x) fun m => .accumulate (.number m) := by
    rw [plan_of_opcode hkind, hoperands]
    rfl
  have hvalue : u.value? x = some (.text v.display) := by
    simp only [value?, hx, hregisters, Registers.get_set, if_true]
  have hstep : u.step p = (.ok .stepped, { u with
      pc := p.following u.pc
      registers := u.registers.set .acc (.number n) }) := by
    rw [step_of_ready hstatus hlog, hplan, Plan.readNumber, Plan.run, read_of_value? hvalue, hx]
    simp only [hn, Plan.accumulate, Plan.run_done, Effect.fault?, Ending.report, Effect.apply,
      consume, record, settle, hlog]
  refine ⟨by rw [hcall], by rw [hstep], ?_⟩
  rw [hstep, hregisters]
  exact Registers.set_set _ _ _ _

end State

/-- The text of a finite number has digits, a point between digits at most, and a minus at most
before them. It reads as the number with any zero positive, which compares as equal, and no part of
it is left unread; texts of finite numbers are equal exactly if the numbers compare as equal. The
text of any other number is refused with the fault of the number itself. So a machine branches alike
on equality of finite numbers and of their texts, and on whether a number or its text is a number;
and a finite number that it makes a text and then a number again is in the accumulator as before. -/
theorem number_texts_stand_for_numbers :
    (∀ n : Number, n.isFinite = true →
      Munch.displayed.rmatch n.display.toList = true ∧
      Number.ofText? n.display.toList = some n.canonical ∧
      (Value.text n.display).toNumber = .ok n.canonical ∧
      n.canonical.compare? n = some .eq ∧
      (∃ d, Decimal.split? (splitSign (Text.trimStart n.display.toList)).2 = some (d, []))) ∧
    (∀ a b : Number, a.isFinite = true → b.isFinite = true →
      (a.display = b.display ↔ a.compare? b = some .eq)) ∧
    (∀ n : Number, n.isFinite = false →
      (Value.text n.display).toNumber = .error (.notANumber (Text.quoted n.display)) ∧
      (Value.number n).toNumber = .error (.notANumber (Text.quoted n.display))) ∧
    ∀ (δ : Type) [Device δ] (p : Program) (s : State δ) (c : Call), Reachable p s →
      s.admits c = true →
      (∀ op test a b, (p.line s.pc).head.kind = .opcode op → test = .equal ∨ test = .unequal →
        op = .testNumbers test ∨ op = .testTexts test →
        s.gathered p c = [.number a, .number b] → a.isFinite = true → b.isFinite = true →
        (s.call p c).1 = .ok .stepped ∧ (s.call p c).2.pc =
          p.following (if test.numbers a b then s.pc else p.nextIndex s.pc)) ∧
      (∀ n : Number, (p.line s.pc).head.kind = .opcode .testNumeric →
        s.gathered p c = [.number n] ∨ s.gathered p c = [.text n.display] →
        (s.call p c).1 = .ok .stepped ∧ (s.call p c).2.pc =
          p.following (if n.isFinite then s.pc else p.nextIndex s.pc)) ∧
      (∀ n : Number, (p.line s.pc).head.kind = .opcode .toText → s.gathered p c = [.number n] →
        n.isFinite = true →
        (p.line (s.call p c).2.pc).tokens.map Token.kind = [.opcode .toNumber, .register .acc] →
        (s.call p c).1 = .ok .stepped ∧ ((s.call p c).2.step p).1 = .ok .stepped ∧
          ((s.call p c).2.step p).2.registers =
            s.registers.set .acc (.number n.canonical)) := by
  refine ⟨?_, fun _ _ => Number.display_eq_iff, ?_, ?_⟩
  · intro n hn
    obtain ⟨negative, t, d, hd, htext, -⟩ := Number.exists_places_of_isFinite hn
    exact ⟨htext ▸ Munch.rmatch_displayed negative hd, Number.ofText?_display hn,
      Value.toNumber_display hn, Number.compare?_canonical hn, Number.split?_display hn⟩
  · intro n hn
    simp only [Value.toNumber, Value.number?_display, Value.number?_number, hn]
    exact ⟨rfl, rfl⟩
  · intro δ _ p s c hs hc
    refine ⟨?_, ?_, ?_⟩
    · intro op test a b hop htest hkind hgathered ha hb
      apply hs.consistent.call_of_verdict? hc hop
      rw [hgathered]
      rcases hkind with rfl | rfl
      · simp [Opcode.verdict?, Value.number?_number, ha, hb]
      · simp [Opcode.verdict?, Value.display, Comparison.texts_display htest ha hb]
    · intro n hop hgathered
      apply hs.consistent.call_of_verdict? hc hop
      rcases hgathered with hgathered | hgathered <;> rw [hgathered]
      · simp only [Opcode.verdict?, Value.isNumber_number]
      · simp only [Opcode.verdict?, Value.isNumber_display]
    · intro n hop hgathered hn hnext
      exact hs.consistent.step_toNumber_of_toText hc hop hgathered (Value.toNumber_display hn) hnext

/-- A negative zero that has been a text is positive, and its text is that of the other zero; the
text of an infinity starts with no number. -/
theorem number_text_of_negative_zero :
    let p := (Program.load "str -0\nnum acc\ntnes acc -0").toOption.getD default
    let s := State.initial 0 (Tape.ofList [])
    let u := ((s.call p .step).2.call p .step).2
    s.gathered p .step = [.number (.finite true .zero)] ∧
      u.registers = s.registers.set .acc (.number .zero) ∧
      u.gathered p .step = [.number .zero, .number (.finite true .zero)] ∧
      (u.call p .step).2.pc = 1 ∧
      (Value.text (Number.infinite true).display).toNumber =
        .error (.notANumber "\"-Infinity\"") := by
  intro p s u
  have hs : Reachable p s := .boot (.ofSeed 0) _
  have hgathered : s.gathered p .step = [.number (.finite true .zero)] := by decide +kernel
  obtain ⟨-, -, hregisters⟩ := (number_texts_stand_for_numbers.2.2.2 _ p s .step hs rfl).2.2
    _ (by decide +kernel) hgathered rfl (by decide +kernel)
  have hu : Reachable p u := .call (.call hs .step) .step
  have hpair : u.gathered p .step = [.number .zero, .number (.finite true .zero)] := by
    decide +kernel
  obtain ⟨-, hpc⟩ := (number_texts_stand_for_numbers.2.2.2 _ p u .step hu (by decide +kernel)).1
    (.testTexts .unequal) .unequal _ _ (by decide +kernel) (.inr rfl) (.inr rfl) hpair rfl rfl
  refine ⟨hgathered, hregisters, hpair, hpc.trans (by decide +kernel), ?_⟩
  rw [(number_texts_stand_for_numbers.2.2.1 (.infinite true) rfl).1]
  decide +kernel

end LineAsm
