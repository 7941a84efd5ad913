import LineAsm.Proofs.Attended
import LineAsm.Proofs.Cursor

set_option autoImplicit false

/-!
# The protocol of suspension

A machine is ready or waits. While it waits, its log and cursor say which operand it waits for, and
only entering a value lets the instruction go on; while it is ready there is nothing to enter.
Calls that come at the wrong time are refused and leave no trace.
-/

namespace LineAsm

theorem Opcode.sources_prefix (op : Opcode) (a b : Option Token) : op.sources a b <+: [a, b] := by
  cases op with
  | testNumbers | testTexts | concat | slice | binary => exact List.prefix_rfl
  | testNumeric | toNumber | toText | jumpBy | unary | length | move => exact ⟨[b], rfl⟩
  | jump | call =>
    unfold sources
    dsimp only
    split
    · exact List.nil_prefix
    · exact ⟨[b], rfl⟩
  | «return» => exact List.nil_prefix

namespace Line

theorem sources_length_le (l : Line) : l.sources.length ≤ 2 := by
  unfold sources
  cases l.head.kind with
  | opcode op => exact (op.sources_prefix _ _).length_le
  | _ => exact Nat.zero_le 2

theorem operand_of_source {l : Line} {i : Nat} {operand : Option Token}
    (h : l.sources[i]? = some operand) :
    (∃ op, l.head.kind = .opcode op) ∧ l.operands[i]? = operand := by
  unfold sources at h
  cases hk : l.head.kind with
  | opcode op =>
    rw [hk] at h
    obtain ⟨hlt, rfl⟩ := List.getElem?_eq_some_iff.1 h
    have hp := List.prefix_iff_getElem?.1 (op.sources_prefix _ _) i hlt
    refine ⟨⟨op, rfl⟩, ?_⟩
    match i with
    | 0 => exact Option.some.inj hp
    | 1 => exact Option.some.inj hp
  | _ => simp [hk] at h

end Line

section

variable {δ : Type}

theorem State.Consistent.exists_input {p : Program} {s : State δ} (h : s.Consistent p)
    (hs : s.status = .waiting) :
    ∃ t, t.kind = .input ∧ (p.line s.pc).sources[s.log.length]? = some (some t) := by
  simp only [Consistent, hs] at h
  obtain ⟨t, next, ht, rs, hl, hlog⟩ := h
  obtain ⟨rest, hsrc, tail, rfl, -⟩ := hl.follows ((p.line s.pc).plan_follows p.labels)
  have hlen : s.log.length = (rs.map fun x => some x.1).length := by
    rw [← hlog, List.length_map, List.length_map]
  refine ⟨t, ht, ?_⟩
  rw [hsrc, hlen, List.getElem?_append_right (Nat.le_refl _), Nat.sub_self]
  rfl

/-- What holds between calls. A ready machine has forgotten its operands. One that waits has the
values of the operands before the cursor, and the operand at the cursor is an input. -/
def Tracked.Orderly (p : Program) (m : Tracked δ) : Prop :=
  match m.state.status with
  | .ready => m.state.log = [] ∧ m.cursor = 0
  | .waiting =>
    m.cursor = m.state.log.length ∧ m.cursor ≤ 1 ∧
      (∃ op, (p.line m.state.pc).head.kind = .opcode op) ∧
      ∃ t, t.kind = .input ∧ (p.line m.state.pc).operands[m.cursor]? = some t ∧
        (p.line m.state.pc).sources[m.cursor]? = some (some t)

theorem Tracked.orderly_of_consistent {p : Program} {m : Tracked δ} (h : m.state.Consistent p)
    (hc : m.cursor = m.state.log.length) : m.Orderly p := by
  unfold Orderly
  cases hs : m.state.status with
  | ready =>
    simp only [State.Consistent, hs] at h
    exact ⟨h, by rw [hc, h]; rfl⟩
  | waiting =>
    obtain ⟨t, ht, hsrc⟩ := h.exists_input hs
    obtain ⟨hop, hoperand⟩ := Line.operand_of_source hsrc
    obtain ⟨hlt, -⟩ := List.getElem?_eq_some_iff.1 hsrc
    have hle : m.state.log.length ≤ 1 :=
      Nat.le_of_lt_succ (Nat.lt_of_lt_of_le hlt (p.line m.state.pc).sources_length_le)
    rw [hc]
    exact ⟨rfl, hle, hop, t, ht, hoperand, hsrc⟩

/-- How many inputs the instruction at hand can still ask for, the one it waits for apart. -/
def State.toAsk (p : Program) (s : State δ) : Nat :=
  match s.status with
  | .ready => s.inputsLeft p
  | .waiting => (s.takenUp (.enter default)).inputsLeft p

theorem State.toAsk_of_admits {s : State δ} {c : Call} (h : s.admits c = true) (p : Program) :
    s.toAsk p = (s.takenUp c).inputsLeft p := by
  cases c with
  | step =>
    have hs : s.status = .ready := eq_of_beq h
    simp only [toAsk, hs, takenUp]
  | enter v =>
    have hs : s.status = .waiting := eq_of_beq h
    simp only [toAsk, hs, inputsLeft, takenUp, record, List.length_append, List.length_singleton]

end

variable {δ : Type} [Device δ]

namespace Tracked

def Sound (p : Program) (m : Tracked δ) : Prop :=
  m.state.Consistent p ∧ m.cursor = m.state.log.length

theorem call_fst (p : Program) (m : Tracked δ) (c : Call) :
    (m.call p c).1 = (m.state.call p c).1 := congrArg Prod.fst (call_eq p m c)

theorem call_state (p : Program) (m : Tracked δ) (c : Call) :
    (m.call p c).2.state = (m.state.call p c).2 := congrArg Prod.snd (call_eq p m c)

theorem Sound.serve {p : Program} {m : Tracked δ} (h : m.Sound p) (r : Request δ) :
    (m.serve p r).2.Sound p := by
  obtain ⟨hs, hc⟩ := h
  cases r with
  | call c =>
    refine ⟨?_, cursor_call hc c⟩
    change (m.call p c).2.state.Consistent p
    rw [call_state]
    exact hs.call c
  | reseed seed => exact ⟨hs, hc⟩
  | attach device => exact ⟨hs, hc⟩

end Tracked

/-! ### Calls that are answered at once -/

namespace State

theorem call_fst_ne_waiting {p : Program} {s : State δ} {c : Call} (h : s.admits c = true) :
    (s.call p c).1 ≠ .ok .waiting := by
  rw [call_of_admits h, dispatch_eq_report]
  cases (plan p (s.takenUp c)).run p (s.takenUp c).log (s.takenUp c) <;> exact fun h => nomatch h

theorem status_of_admitted {p : Program} {s : State δ} {c : Call} (h : s.Consistent p)
    (hc : s.admits c = true) :
    (s.call p c).2.status = .waiting ↔ (s.call p c).1 = .ok .input := by
  obtain ⟨rs, r, ending, -, -, he, heq⟩ := h.exists_ends hc
  have hready := reached_status (p := p) hc
  rw [heq]
  cases he with
  | completed _ =>
    dsimp only [Ending.report, settle]
    rw [effect_apply_status, hready]
    exact iff_of_false (fun h => nomatch h) (fun h => nomatch h)
  | suspended _ _ => exact ⟨fun _ => rfl, fun _ => rfl⟩
  | refused _ | failed _ | unreadable _ _ =>
    dsimp only [Ending.report, settle]
    rw [hready]
    exact iff_of_false (fun h => nomatch h) (fun h => nomatch h)

end State

def isIdle : Option (Except Diagnostic Event) → Bool
  | some (.ok .waiting) => true
  | some (.error d) => d.kind == .noPendingInput
  | _ => false

theorem State.isIdle_call {p : Program} {s : State δ} (h : s.Consistent p) (c : Call) :
    isIdle (some (s.call p c).1) = !s.admits c := by
  cases hc : s.admits c with
  | false =>
    rw [call_of_not_admits hc]
    cases c <;> rfl
  | true =>
    cases hd : (s.call p c).1 with
    | error d =>
      obtain ⟨-, -, hkind⟩ := h.failed_call hc hd
      simpa [isIdle] using hkind
    | ok event =>
      cases event with
      | stepped => rfl
      | input => rfl
      | waiting => exact absurd hd (call_fst_ne_waiting hc)

namespace Tracked

theorem isIdle_serve {p : Program} {m : Tracked δ} (h : m.Sound p) (r : Request δ)
    (hi : isIdle (m.serve p r).1 = true) : (m.serve p r).2 = m := by
  cases r with
  | reseed seed => cases hi
  | attach device => cases hi
  | call c =>
    have hc : m.state.admits c = false := by
      have hidle : isIdle (some (m.call p c).1) = true := hi
      rw [call_fst, State.isIdle_call h.1] at hidle
      simpa using hidle
    change (m.call p c).2 = m
    rw [call_of_refused hc]

def dispatches (m : Tracked δ) : Request δ → Bool
  | .call c => m.state.admits c
  | .reseed _ => false
  | .attach _ => false

theorem status_serve {p : Program} {m : Tracked δ} (h : m.Sound p) (r : Request δ) :
    (m.serve p r).2.state.status = .waiting ↔
      if m.dispatches r then (m.serve p r).1 = some (.ok .input)
      else m.state.status = .waiting := by
  cases r with
  | reseed seed => rfl
  | attach device => rfl
  | call c =>
    change (m.call p c).2.state.status = .waiting ↔
      if m.state.admits c then some (m.call p c).1 = some (.ok .input) else _
    rw [call_state, call_fst]
    cases hc : m.state.admits c with
    | true =>
      rw [if_pos rfl, Option.some_inj]
      exact State.status_of_admitted h.1 hc
    | false =>
      rw [if_neg Bool.false_ne_true, State.call_of_not_admits hc]

end Tracked

def Exchange.dispatched (x : Exchange (Tracked δ) δ) : Bool := x.before.dispatches x.request

namespace Tracked

/-- The machine waits in the end if the last execution has asked for input; without any execution,
if it waited in the beginning. -/
theorem status_served {p : Program} {m : Tracked δ} (h : m.Sound p) (rs : List (Request δ)) :
    (served (serve p) m rs).state.status = .waiting ↔
      match ((exchanges (serve p) m rs).filter Exchange.dispatched).getLast? with
      | some x => x.answer = some (.ok .input)
      | none => m.state.status = .waiting := by
  induction rs generalizing m with
  | nil => rfl
  | cons r rs ih =>
    simp only [served, exchanges, List.filter_cons]
    rw [ih (h.serve r), status_serve h r]
    have hx : Exchange.dispatched ⟨m, r, (m.serve p r).1, (m.serve p r).2⟩ = m.dispatches r := rfl
    rw [hx]
    cases m.dispatches r with
    | false => rfl
    | true =>
      rw [if_pos rfl, if_pos rfl, List.getLast?_cons]
      cases ((exchanges (serve p) (m.serve p r).2 rs).filter Exchange.dispatched).getLast? <;> rfl

end Tracked

theorem State.Consistent.toAsk_lt {p : Program} {s : State δ} {c : Call} (h : s.Consistent p)
    (hc : s.admits c = true) (hd : (s.call p c).1 = .ok .input) :
    (s.call p c).2.toAsk p < s.toAsk p := by
  have hwait : (s.call p c).2.admits (.enter default) = true := by
    rw [h.suspended_call hd]
    rfl
  rw [toAsk_of_admits hwait, toAsk_of_admits hc]
  exact h.inputsLeft_lt hc hd default

def Exchange.asked (x : Exchange (Tracked δ) δ) : Bool := decide (x.answer = some (.ok .input))

def Exchange.continues (x : Exchange (Tracked δ) δ) : Bool := !x.dispatched || x.asked

namespace Tracked

theorem toAsk_of_not_dispatches {p : Program} {m : Tracked δ} {r : Request δ}
    (h : m.dispatches r = false) :
    (m.serve p r).2.state.toAsk p = m.state.toAsk p ∧ (m.serve p r).1 ≠ some (.ok .input) := by
  cases r with
  | reseed seed => exact ⟨rfl, fun h => nomatch h⟩
  | attach device => exact ⟨rfl, fun h => nomatch h⟩
  | call c =>
    have hc : m.state.admits c = false := h
    change (m.call p c).2.state.toAsk p = _ ∧ some (m.call p c).1 ≠ _
    rw [call_state, call_fst, State.call_of_not_admits hc]
    refine ⟨rfl, ?_⟩
    cases c <;> exact fun h => nomatch h

/-- Until the instruction at hand is over, it asks for no more than its inputs. The induction is on
the requests: each one that is answered by asking leaves less to ask for. -/
theorem count_asked_le {p : Program} {m : Tracked δ} (h : m.Sound p) (rs : List (Request δ)) :
    ((exchanges (serve p) m rs).takeWhile Exchange.continues).countP Exchange.asked ≤
      m.state.toAsk p := by
  induction rs generalizing m with
  | nil => exact Nat.zero_le _
  | cons r rs ih =>
    have hrest := ih (h.serve r)
    unfold exchanges
    generalize hx : (⟨m, r, (m.serve p r).1, (m.serve p r).2⟩ : Exchange (Tracked δ) δ) = x
    have hdispatched : x.dispatched = m.dispatches r := by rw [← hx]; rfl
    have hasked : x.asked = decide ((m.serve p r).1 = some (.ok .input)) := by rw [← hx]; rfl
    cases hd : m.dispatches r with
    | false =>
      obtain ⟨hsame, hne⟩ := toAsk_of_not_dispatches (p := p) hd
      have hnot : x.asked = false := by rw [hasked, decide_eq_false hne]
      have hcont : x.continues = true := by rw [Exchange.continues, hdispatched, hd]; rfl
      rw [List.takeWhile_cons_of_pos hcont, List.countP_cons_of_neg (by simp [hnot])]
      exact hsame ▸ hrest
    | true =>
      by_cases ha : (m.serve p r).1 = some (.ok .input)
      · obtain ⟨c, rfl⟩ : ∃ c, r = .call c := by
          cases r with
          | call c => exact ⟨c, rfl⟩
          | reseed seed => cases hd
          | attach device => cases hd
        have hyes : x.asked = true := by rw [hasked, decide_eq_true ha]
        have hcont : x.continues = true := by rw [Exchange.continues, hyes, Bool.or_true]
        have hin : (m.state.call p c).1 = .ok .input := by
          rw [← call_fst]
          exact Option.some.inj ha
        have hlt := h.1.toAsk_lt hd hin
        rw [← call_state] at hlt
        rw [List.takeWhile_cons_of_pos hcont, List.countP_cons_of_pos hyes]
        exact Nat.lt_of_le_of_lt hrest hlt
      · have hcont : ¬ x.continues = true := by
          simp [Exchange.continues, hdispatched, hd, hasked, ha]
        rw [List.takeWhile_cons_of_neg hcont]
        exact Nat.zero_le _

end Tracked

theorem Tracked.step_waiting_iff (p : Program) (m : Tracked δ) :
    (m.call p .step).1 = .ok .waiting ↔ m.state.status = .waiting := by
  cases hs : m.state.status with
  | ready =>
    have hc : m.state.admits .step = true := by rw [State.admits, hs]; rfl
    rw [call_fst]
    exact iff_of_false (State.call_fst_ne_waiting hc) (by decide)
  | waiting =>
    have hc : m.state.admits .step = false := by rw [State.admits, hs]; rfl
    rw [call_of_refused hc]
    exact iff_of_true rfl rfl

theorem Tracked.enter_refused_iff {p : Program} {m : Tracked δ} (h : m.Sound p) (v : Value) :
    (∃ d, (m.call p (.enter v)).1 = .error d ∧ d.kind = .noPendingInput) ↔
      m.state.status = .ready := by
  cases hs : m.state.status with
  | ready =>
    have hc : m.state.admits (.enter v) = false := by rw [State.admits, hs]; rfl
    rw [call_of_refused hc]
    exact iff_of_true ⟨_, rfl, rfl⟩ rfl
  | waiting =>
    have hc : m.state.admits (.enter v) = true := by rw [State.admits, hs]; rfl
    refine iff_of_false ?_ (by decide)
    rintro ⟨d, hd, hkind⟩
    rw [call_fst] at hd
    exact (h.1.failed_call hc hd).2.2 hkind

/-- Whatever requests a machine has served: its log and cursor are in order; it waits exactly if the
last execution has asked for input; a step while it waits and a value entered while it is ready are
refused and change nothing. An instruction that starts asks for no more inputs than it has, and
leaving out the refused calls changes no other exchange and not the state in the end. But for the
cursor, all this is the machine of the library. -/
theorem suspension_protocol (p : Program) (generator : Generator) (device : δ)
    (rs : List (Request δ)) :
    let start := Tracked.boot generator device
    let m := served (Tracked.serve p) start rs
    let past := exchanges (Tracked.serve p) start rs
    let kept := past.filter fun x => !isIdle x.answer
    m.Orderly p ∧
    (m.state.status = .waiting ↔
      (past.filter Exchange.dispatched).getLast?.bind Exchange.answer = some (.ok .input)) ∧
    ((m.call p .step).1 = .ok .waiting ↔ m.state.status = .waiting) ∧
    (m.state.status = .waiting → (m.call p .step).2 = m) ∧
    (∀ v, (∃ d, (m.call p (.enter v)).1 = .error d ∧ d.kind = .noPendingInput) ↔
      m.state.status = .ready) ∧
    (m.state.status = .ready → ∀ v, (m.call p (.enter v)).2 = m) ∧
    (m.state.status = .ready → ∀ qs,
      ((exchanges (Tracked.serve p) m qs).takeWhile Exchange.continues).countP Exchange.asked ≤
        (p.line m.state.pc).sourceCount .input) ∧
    (p.line m.state.pc).sourceCount .input ≤ 2 ∧
    exchanges (Tracked.serve p) start (kept.map Exchange.request) = kept ∧
    served (Tracked.serve p) start (kept.map Exchange.request) = m ∧
    ∀ c, ((m.call p c).1, (m.call p c).2.state) = m.state.call p c := by
  intro start m past kept
  have hstart : start.Sound p := ⟨rfl, rfl⟩
  have hm : m.Sound p := served_invariant (fun _ r h => h.serve r) hstart rs
  obtain ⟨hkept, hend⟩ := exchanges_filter (fun _ r h => h.serve r)
    (fun _ r h => Tracked.isIdle_serve h r) hstart rs
  have hstatus := Tracked.status_served hstart rs
  refine ⟨Tracked.orderly_of_consistent hm.1 hm.2, ?_, Tracked.step_waiting_iff p m, ?_,
    fun v => Tracked.enter_refused_iff hm v, ?_, ?_,
    Nat.le_trans List.countP_le_length (p.line m.state.pc).sources_length_le, hkept, hend,
    Tracked.call_eq p m⟩
  · rw [hstatus]
    cases (past.filter Exchange.dispatched).getLast? with
    | some x => rfl
    | none => exact iff_of_false (fun h => nomatch h) (fun h => nomatch h)
  · intro hs
    rw [Tracked.call_of_refused (by rw [State.admits, hs]; rfl)]
  · intro hs v
    rw [Tracked.call_of_refused (by rw [State.admits, hs]; rfl)]
  · intro hs qs
    have hle := Tracked.count_asked_le hm qs
    have hask : m.state.toAsk p = m.state.inputsLeft p := by simp only [State.toAsk, hs]
    exact Nat.le_trans hle (hask ▸ State.inputsLeft_le p m.state)

/-- Two inputs are asked for; the step between them is refused. -/
theorem suspension_protocol_of_two_inputs :
    let p := (Program.load "cat in in").toOption.getD default
    let start := Tracked.boot (.ofSeed 0) (Tape.ofList [])
    let qs := [.call .step, .call .step, .call (.enter (.text "a")), .call (.enter (.text "b"))]
    let asked := ((exchanges (Tracked.serve p) start qs).takeWhile Exchange.continues).countP
      Exchange.asked
    start.state.status = .ready ∧ asked = 2 ∧ asked ≤ (p.line 0).sourceCount .input := by
  intro p start qs asked
  obtain ⟨-, -, -, -, -, -, h, -⟩ := suspension_protocol p (.ofSeed 0) (Tape.ofList []) []
  exact ⟨rfl, by decide +kernel, h rfl qs⟩

end LineAsm
