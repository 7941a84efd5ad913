import LineAsm.Proofs.Comparisons
import LineAsm.Proofs.Control
import Mathlib.Control.Monad.Basic

set_option autoImplicit false

/-!
# Where a machine comes to rest

Every completed instruction is followed by an advance to the next line that does something. So after
the first one, the machine is never on an inert line again, and a test decides between the lines
after its own and after the one below.
-/

namespace LineAsm

namespace Program

theorem IsNext.unique {p : Program} {i j k : Nat} (hj : p.IsNext i j) (hk : p.IsNext i k) :
    j = k := by
  obtain ⟨m, hm, rfl, hjexec, hjbefore⟩ := hj
  obtain ⟨n, hn, rfl, hkexec, hkbefore⟩ := hk
  -- the nearer of the two would be an inert line before the other
  rcases Nat.lt_trichotomy m n with hlt | rfl | hgt
  · rw [hkbefore m hm hlt] at hjexec
    cases hjexec
  · rfl
  · rw [hjbefore n hn hgt] at hkexec
    cases hkexec

theorem following_of_all_isInert {p : Program} {i : Nat} (hi : i < p.size)
    (h : ∀ j, j < p.size → (p.line j).isInert = true) : p.following i = (i + 1) % p.size := by
  have hp : 0 < p.size := Nat.zero_lt_of_lt hi
  obtain ⟨m, -, hpass, -, hstop⟩ := p.passInert_eq p.size (nextIndex_lt hp i)
  rcases hstop with rfl | hexec
  · rw [following, hpass, Nat.add_mod_right, nextIndex, Nat.mod_mod]
  · rw [h _ (passInert_lt hp _ (nextIndex_lt hp i))] at hexec
    cases hexec

theorem following_not_isInert {p : Program} (h : p.IsExecutable) (i : Nat) :
    (p.line (p.following i)).isInert = false := by
  obtain ⟨n, -, -, hexec, -⟩ := following_isNext h i
  exact hexec

end Program

/-! ### Runs -/

section

variable {δ : Type}

theorem ControlStep.not_isInert {p : Program} {s u : State δ}
    {a : Option (Except Diagnostic Event)} (h : ControlStep p s a u) (hp : p.IsExecutable)
    (hs : a = some (.ok .stepped) ∨ (p.line s.pc).isInert = false) :
    (p.line u.pc).isInert = false := by
  cases h with
  | rests ha hpc _ =>
    rcases hs with hstepped | hs
    · exact absurd hstepped ha
    · exact hpc ▸ hs
  | passes _ i hpc _ => exact hpc ▸ Program.following_not_isInert hp i
  | enters _ i hpc _ => exact hpc ▸ Program.following_not_isInert hp i
  | returns _ i _ hpc _ => exact hpc ▸ Program.following_not_isInert hp i

variable [Device δ]

/-- Once an instruction has completed, the machine stays on lines that do something. The induction
is on the requests; what is carried along is that this has begun, or that it will. -/
theorem State.Consistent.not_isInert_served {p : Program} {s : State δ} (h : s.Consistent p)
    (hp : p.IsExecutable) {rs : List (Request δ)}
    (hs : (∃ x ∈ exchanges (State.serve p) s rs, x.answer = some (.ok .stepped)) ∨
      (p.line s.pc).isInert = false) :
    (p.line (served (State.serve p) s rs).pc).isInert = false := by
  induction rs generalizing s with
  | nil =>
    rcases hs with ⟨x, hx, -⟩ | hs
    · cases hx
    · exact hs
  | cons r rs ih =>
    have hstep := (h.control r).not_isInert hp
    apply ih (h.serve r)
    rcases hs with ⟨x, hx, hstepped⟩ | hs
    · rcases List.mem_cons.1 hx with rfl | hx
      · exact .inr (hstep (.inl hstepped))
      · exact .inl ⟨x, hx, hstepped⟩
    · exact .inr (hstep (.inr hs))

end

/-! ### Tests -/

/-- Whether a test holds of the values of its operands. Other opcodes test nothing, and numbers are
not compared with what is no number. -/
def Opcode.verdict? (op : Opcode) (vs : List Value) : Option Bool :=
  match op, vs with
  | .testNumbers c, [v, w] => v.number?.bind fun x => w.number?.map fun y => c.numbers x y
  | .testTexts c, [v, w] => some (c.texts v.display w.display)
  | .testNumeric, [v] => some v.isNumber
  | _, _ => none

theorem Value.isFinite_of_number? {v : Value} {x : Number} (h : v.number? = some x) :
    x.isFinite = true :=
  (Option.filter_eq_some_iff.1 h).2

theorem Opcode.verdict?_testNumbers_iff (c : Comparison) (v w : Value) (test : Bool) :
    (testNumbers c).verdict? [v, w] = some test ↔
      ∃ q r : ℚ, v.number?.bind Number.toRat? = some q ∧ w.number?.bind Number.toRat? = some r ∧
        (test = true ↔ c.Holds q r) := by
  rw [verdict?]
  constructor
  · intro h
    obtain ⟨x, hx, h⟩ := Option.bind_eq_some_iff.1 h
    obtain ⟨y, hy, rfl⟩ := Option.map_eq_some_iff.1 h
    obtain ⟨q, hq⟩ := Number.exists_toRat? (Value.isFinite_of_number? hx)
    obtain ⟨r, hr⟩ := Number.exists_toRat? (Value.isFinite_of_number? hy)
    exact ⟨q, r, Option.bind_eq_some_iff.2 ⟨x, hx, hq⟩, Option.bind_eq_some_iff.2 ⟨y, hy, hr⟩,
      c.numbers_iff hq hr⟩
  · rintro ⟨q, r, hv, hw, htest⟩
    obtain ⟨x, hx, hq⟩ := Option.bind_eq_some_iff.1 hv
    obtain ⟨y, hy, hr⟩ := Option.bind_eq_some_iff.1 hw
    rw [hx, hy]
    exact congrArg some (Bool.eq_iff_iff.2 ((c.numbers_iff hq hr).trans htest.symm))

theorem Opcode.verdict?_testTexts_iff (c : Comparison) (v w : Value) (test : Bool) :
    (testTexts c).verdict? [v, w] = some test ↔ (test = true ↔ c.Holds v.display w.display) := by
  rw [verdict?, Option.some_inj, ← c.texts_iff, eq_comm, Bool.eq_iff_iff]

theorem Plan.verdict_of_leads {labels : Labels} {op : Opcode} {a b : Option Token}
    {rs : List (Token × Value)} {e : Effect} (hop : op.isTest = true)
    (h : (ofOpcode labels op a b).Leads rs (.done e)) :
    ∃ test, op.verdict? (rs.map Prod.snd) = some test ∧ e = .skipUnless test := by
  cases op with
  | testNumbers c =>
    obtain ⟨_, v, x, _, -, rfl, hx, hsecond⟩ := h.of_readNumber
    obtain ⟨_, w, y, _, -, rfl, hy, hlast⟩ := hsecond.of_readNumber
    obtain ⟨rfl, he⟩ := hlast.of_done
    refine ⟨c.numbers x y, ?_, Plan.done.inj he⟩
    simp [Opcode.verdict?, hx, hy]
  | testTexts c =>
    obtain ⟨_, v, _, -, rfl, hsecond⟩ := h.of_read
    obtain ⟨_, w, _, -, rfl, hlast⟩ := hsecond.of_read
    obtain ⟨rfl, he⟩ := hlast.of_done
    exact ⟨_, rfl, Plan.done.inj he⟩
  | testNumeric =>
    obtain ⟨_, v, _, -, rfl, hlast⟩ := h.of_read
    obtain ⟨rfl, he⟩ := hlast.of_done
    exact ⟨_, rfl, Plan.done.inj he⟩
  | _ => cases hop

theorem Effect.pc_skipUnless {δ : Type} [Device δ] (test : Bool) (p : Program) (s : State δ) :
    ((skipUnless test).apply p s).pc = if test then s.pc else p.nextIndex s.pc := by
  cases test <;> rfl

theorem State.Consistent.completed_test {δ : Type} [Device δ] {p : Program} {s : State δ}
    {c : Call} {op : Opcode} (h : s.Consistent p) (hop : (p.line s.pc).head.kind = .opcode op)
    (htest : op.isTest = true) (hdone : (s.call p c).1 = .ok .stepped) :
    ∃ test, op.verdict? (s.gathered p c) = some test ∧
      (s.call p c).2.pc = p.following (if test then s.pc else p.nextIndex s.pc) := by
  cases hc : s.admits c with
  | false =>
    rw [call_of_not_admits hc] at hdone
    cases c <;> cases hdone
  | true =>
    obtain ⟨rs, r, ending, hlog, hl, he, heq⟩ := h.exists_ends hc
    rw [heq] at hdone ⊢
    cases he with
    | suspended _ _ | refused _ | failed _ | unreadable _ _ => cases hdone
    | @completed e _ =>
      have hplan : s.plan p = .ofOpcode p.labels op (p.line s.pc).operands[0]?
          (p.line s.pc).operands[1]? := by simp only [plan, Line.plan, hop]
      rw [hplan] at hl
      obtain ⟨test, hverdict, rfl⟩ := Plan.verdict_of_leads htest hl
      refine ⟨test, ?_, ?_⟩
      · rw [gathered, ← hlog, ← List.map_append]
        exact hverdict
      · change p.following ((Effect.skipUnless test).apply p (s.reached p c)).pc = _
        rw [Effect.pc_skipUnless, (consumed_reached p s c).pc]

/-- The advance from a line goes to the first line after it, counted round the program, that is not
inert, and to the very next one if all are inert. So in a program with a line that is not inert, the
machine is on such a line in every state after the first completed instruction, whatever fails or
waits later. A completed test that holds goes on after its own line, one that fails after the line
below. -/
theorem machine_rests_on_executable_lines (p : Program) :
    (∀ i, i < p.size →
      (p.IsExecutable → ∀ j, p.IsNext i j ↔ j = p.following i) ∧
      ((∀ j, j < p.size → (p.line j).isInert = true) → p.following i = (i + 1) % p.size)) ∧
    ∀ {δ : Type} [Device δ] (s : State δ), Reachable p s →
      (p.IsExecutable → ∀ rs,
        (∃ x ∈ exchanges (State.serve p) s rs, x.answer = some (.ok .stepped)) →
        (p.line (served (State.serve p) s rs).pc).isInert = false) ∧
      ∀ c op, (p.line s.pc).head.kind = .opcode op → op.isTest = true →
        (s.call p c).1 = .ok .stepped →
        ∃ test, op.verdict? (s.gathered p c) = some test ∧
          p.IsNext (if test then s.pc else (s.pc + 1) % p.size) (s.call p c).2.pc := by
  refine ⟨?_, ?_⟩
  · intro i hi
    refine ⟨?_, Program.following_of_all_isInert hi⟩
    intro hexec j
    have hnext := Program.following_isNext hexec i
    exact ⟨fun hj => hj.unique hnext, fun hj => hj ▸ hnext⟩
  · intro δ _ s hs
    refine ⟨fun hexec rs hstepped => hs.consistent.not_isInert_served hexec (.inl hstepped), ?_⟩
    intro c op hop htest hdone
    obtain ⟨test, hverdict, hpc⟩ := hs.consistent.completed_test hop htest hdone
    have hexec := (Program.isExecutable_of_opcode hop).2
    exact ⟨test, hverdict, hpc ▸ Program.following_isNext hexec _⟩

/-- If the entered number is another, the line below is passed over; the rest of the lines are
inert, and the advance comes round to the test itself. If it is the same, the line below is next. -/
theorem entered_number_decides_a_test :
    let p := (Program.load "teq 1 in\nmov 1 r0\n\n@a").toOption.getD default
    let s := ((State.initial 0 (Tape.ofList [])).call p .step).2
    let other := Call.enter (.number .zero)
    let same := Call.enter (.number .one)
    s.status = .waiting ∧
      ((s.call p other).1 = .ok .stepped ∧ p.IsNext 1 (s.call p other).2.pc ∧
        (s.call p other).2.pc = 0) ∧
      ((s.call p same).1 = .ok .stepped ∧ p.IsNext 0 (s.call p same).2.pc ∧
        (s.call p same).2.pc = 1) := by
  intro p s other same
  have hs : Reachable p s := .call (.boot (.ofSeed 0) _) .step
  have hother : (s.call p other).1 = .ok .stepped := by decide +kernel
  have hsame : (s.call p same).1 = .ok .stepped := by decide +kernel
  have hop : (p.line s.pc).head.kind = .opcode (.testNumbers .equal) := by decide +kernel
  have hpc : s.pc = 0 ∧ (s.pc + 1) % p.size = 1 := by decide +kernel
  have hdecides : ∀ c test, (s.call p c).1 = .ok .stepped →
      (Opcode.testNumbers .equal).verdict? (s.gathered p c) = some test →
      p.IsNext (if test then s.pc else (s.pc + 1) % p.size) (s.call p c).2.pc := by
    intro c test hdone htest
    obtain ⟨found, hfound, hnext⟩ :=
      ((machine_rests_on_executable_lines p).2 s hs).2 c _ hop rfl hdone
    obtain rfl : test = found := Option.some.inj (htest.symm.trans hfound)
    exact hnext
  have hbelow := hdecides other false hother (by decide +kernel)
  have hnext := hdecides same true hsame (by decide +kernel)
  rw [if_neg Bool.false_ne_true, hpc.2] at hbelow
  rw [if_pos rfl, hpc.1] at hnext
  exact ⟨by decide +kernel, ⟨hother, hbelow, by decide +kernel⟩, hsame, hnext, by decide +kernel⟩

end LineAsm
