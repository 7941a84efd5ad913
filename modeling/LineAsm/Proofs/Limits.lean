import LineAsm.Proofs.Residues
import LineAsm.Proofs.Resolution
import LineAsm.Proofs.Suspension
import Mathlib.Control.Monad.Basic

set_option autoImplicit false

/-!
# The limits of stacks and cells

A stack holds at most 65535 entries, and there are 65536 cells. An instruction runs out of memory
exactly if it would go past one of these limits after its operands are read, and it meets an empty
stack exactly if it takes an entry where there is none. Which comes first is decided by the order of
reading: what an operand pops makes room for what the instruction pushes.
-/

namespace LineAsm

namespace Stack

variable {α : Type}

theorem isFull_iff (s : Stack α) : s.isFull = true ↔ 65535 ≤ s.size := decide_eq_true_iff

theorem size_lt_of_isFull {s : Stack α} (h : s.isFull = false) : s.size < 65535 :=
  Nat.lt_of_not_le (of_decide_eq_false h)

theorem isEmpty_iff (s : Stack α) : s.isEmpty = true ↔ s.size = 0 := Array.isEmpty_iff_size_eq_zero

end Stack

theorem Memory.inRange_iff (m : Memory) : m.inRange = true ↔ m.address < 65536 :=
  decide_eq_true_iff

/-! ### The bounds -/

/-- The stacks and the cells are within their limits. -/
structure State.WithinLimits {δ : Type} (s : State δ) : Prop where
  stack : s.memory.stack.size ≤ 65535
  calls : s.calls.size ≤ 65535
  cells : s.memory.cells.size ≤ 65536

section

variable {δ : Type} [Device δ]

theorem Effect.withinLimits_apply {s : State δ} (h : s.WithinLimits) {e : Effect}
    (hf : e.fault? s = none) (p : Program) : (e.apply p s).WithinLimits := by
  have hjump : ∀ position, ((jump position).apply p s).WithinLimits :=
    fun _ => ⟨h.stack, h.calls, h.cells⟩
  cases e with
  | skipUnless test => cases test <;> exact ⟨h.stack, h.calls, h.cells⟩
  | jumpBy offset =>
    rw [apply_jumpBy]
    exact hjump _
  | call position =>
    have hroom : s.calls.isFull = false := by simpa [fault?] using hf
    have hlt := Stack.size_lt_of_isFull hroom
    refine ⟨h.stack, ?_, h.cells⟩
    change (s.calls.add s.pc).size ≤ 65535
    rw [Stack.size_add]
    omega
  | «return» =>
    refine ⟨h.stack, ?_, h.cells⟩
    change s.calls.drop.size ≤ 65535
    rw [Stack.size_drop]
    exact Nat.le_trans (Nat.sub_le _ _) h.calls
  | store v =>
    have hrange : s.memory.inRange = true := by simpa [fault?] using hf
    have hlt := (Memory.inRange_iff _).1 hrange
    refine ⟨h.stack, h.calls, ?_⟩
    change (s.memory.put v).cells.size ≤ 65536
    rw [Memory.size_cells_put]
    exact Nat.max_le.2 ⟨h.cells, hlt⟩
  | push v =>
    have hroom : s.memory.stack.isFull = false := by simpa [fault?] using hf
    have hlt := Stack.size_lt_of_isFull hroom
    refine ⟨?_, h.calls, h.cells⟩
    change (s.memory.stack.add v).size ≤ 65535
    rw [Stack.size_add]
    omega
  | _ => exact ⟨h.stack, h.calls, h.cells⟩

theorem Consumed.stack_size_le {a b c : Nat} {s u : State δ} (h : Consumed a b c s u) :
    u.memory.stack.size ≤ s.memory.stack.size := by
  obtain ⟨taken, hitems, -⟩ := h.stack
  rw [Stack.size, Stack.size, hitems, Array.size_append]
  exact Nat.le_add_right _ _

theorem Consumed.withinLimits {a b c : Nat} {s u : State δ} (h : Consumed a b c s u)
    (hs : s.WithinLimits) : u.WithinLimits :=
  ⟨Nat.le_trans h.stack_size_le hs.stack, h.calls ▸ hs.calls, h.cells ▸ hs.cells⟩

theorem State.WithinLimits.call {p : Program} {s : State δ} (hs : s.WithinLimits)
    (h : s.Consistent p) (c : Call) : (s.call p c).2.WithinLimits := by
  cases hc : s.admits c with
  | false =>
    rw [call_of_not_admits hc]
    exact hs
  | true =>
    obtain ⟨-, r, ending, -, -, he, heq⟩ := h.exists_ends hc
    have hread := (consumed_reached p s c).withinLimits hs
    rw [heq]
    cases he with
    | completed hfault =>
      have hdone := Effect.withinLimits_apply hread hfault p
      exact ⟨hdone.stack, hdone.calls, hdone.cells⟩
    | suspended _ _ | refused _ | failed _ | unreadable _ _ =>
      exact ⟨hread.stack, hread.calls, hread.cells⟩

theorem Reachable.withinLimits {p : Program} {s : State δ} (h : Reachable p s) :
    s.WithinLimits := by
  induction h with
  | boot generator device => exact ⟨Nat.zero_le _, Nat.zero_le _, Nat.zero_le _⟩
  | call hs c ih => exact ih.call hs.consistent c
  | reseed _ seed ih => exact ⟨ih.stack, ih.calls, ih.cells⟩
  | attach _ device ih => exact ⟨ih.stack, ih.calls, ih.cells⟩

end

/-! ### Faults -/

theorem Effect.outOfMemory_iff {δ : Type} (e : Effect) (u : State δ) :
    (e.fault? u).map Fault.toClass = some .outOfMemory ↔
      e.limited? = some .push ∧ 65535 ≤ u.memory.stack.size ∨
      (∃ position, e = .call position) ∧ 65535 ≤ u.calls.size ∨
      e.limited? = some .memory ∧ 65536 ≤ u.memory.address := by
  have hrange : 65536 ≤ u.memory.address ↔ u.memory.inRange = false := by
    rw [← Bool.not_eq_true, Memory.inRange_iff, Nat.not_lt]
  rw [← Stack.isFull_iff, ← Stack.isFull_iff, hrange]
  cases e with
  | call position => cases h : u.calls.isFull <;> simp [fault?, limited?, h, Fault.toClass]
  | «return» => cases h : u.calls.isEmpty <;> simp [fault?, limited?, h, Fault.toClass]
  | store v => cases h : u.memory.inRange <;> simp [fault?, limited?, h, Fault.toClass]
  | push v => cases h : u.memory.stack.isFull <;> simp [fault?, limited?, h, Fault.toClass]
  | _ => simp [fault?, limited?]

theorem Effect.stackUnderflow_iff {δ : Type} (e : Effect) (u : State δ) :
    (e.fault? u).map Fault.toClass = some .stackUnderflow ↔ e = .return ∧ u.calls.size = 0 := by
  rw [← Stack.isEmpty_iff]
  cases e with
  | call position => cases h : u.calls.isFull <;> simp [fault?, h, Fault.toClass]
  | «return» => cases h : u.calls.isEmpty <;> simp [fault?, h, Fault.toClass]
  | store v => cases h : u.memory.inRange <;> simp [fault?, h, Fault.toClass]
  | push v => cases h : u.memory.stack.isFull <;> simp [fault?, h, Fault.toClass]
  | _ => simp [fault?]

section

variable {δ : Type} [Device δ]

/-- A call is answered with an error of the given class. -/
def State.Fails (p : Program) (s : State δ) (c : Call) (k : FaultClass) : Prop :=
  ∃ d, (s.call p c).1 = .error d ∧ d.kind = k

def Plan.fault? (u : State δ) : Plan → Option Fault
  | .done e => e.fault? u
  | .fail f => some f
  | .read none _ => some (u.sourceFault none)
  | .read (some t) _ =>
    if t.kind = .input ∨ (u.value? t).isSome then none else some (u.sourceFault (some t))

theorem Plan.Ends.fails_iff {p : Program} {u : State δ} {r : Plan} {ending : Ending δ}
    (h : r.Ends p u ending) (pc : Nat) (k : FaultClass) :
    (∃ d, (ending.report p pc).1 = .error d ∧ d.kind = k) ↔
      (r.fault? u).map Fault.toClass = some k := by
  cases h with
  | completed hf => simp [Ending.report, fault?, hf]
  | refused hf => simp [Ending.report, fault?, hf, Fault.inLine]
  | failed f => simp [Ending.report, fault?, Fault.inLine]
  | suspended ht hv => simp [Ending.report, fault?, ht]
  | @unreadable operand next ht hv =>
    cases operand with
    | none => simp [Ending.report, fault?, Fault.inLine]
    | some t =>
      have hne : t.kind ≠ .input := ht t rfl
      have hnone : u.value? t = none := hv
      simp [Ending.report, fault?, Fault.inLine, hne, hnone]

theorem State.Consistent.fails_iff {p : Program} {s : State δ} (h : s.Consistent p) (c : Call)
    {k : FaultClass} (hk : k ≠ .noPendingInput) :
    s.Fails p c k ↔ s.admits c = true ∧
      (((s.plan p).residue (s.gathered p c)).fault? (s.reached p c)).map Fault.toClass =
        some k := by
  unfold Fails
  cases hc : s.admits c with
  | false =>
    rw [call_of_not_admits hc]
    cases c with
    | step => simp
    | enter v => simp [Fault.inLine, Fault.toClass, hk.symm]
  | true =>
    obtain ⟨rs, r, ending, hlog, hl, he, heq⟩ := h.exists_ends hc
    have hres : (s.plan p).residue (s.gathered p c) = r := by
      rw [gathered, ← hlog, ← List.map_append]
      exact hl.residue_eq
    rw [heq, he.fails_iff, hres]
    simp

namespace Plan

theorem fault?_read_ne_outOfMemory (operand : Option Token) (next : Value → Plan) (u : State δ) :
    ((Plan.read operand next).fault? u).map Fault.toClass ≠ some .outOfMemory := by
  cases operand with
  | none => simp [fault?, State.sourceFault, Fault.toClass]
  | some t =>
    obtain ⟨kind, text, line⟩ := t
    cases kind <;> simp [fault?, State.sourceFault, Fault.toClass]

theorem read_stackUnderflow_iff (operand : Option Token) (next : Value → Plan) (u : State δ) :
    ((Plan.read operand next).fault? u).map Fault.toClass = some .stackUnderflow ↔
      ∃ t, (t.kind = .pop ∨ t.kind = .top) ∧ operand = some t ∧ u.memory.stack.size = 0 := by
  cases operand with
  | none => simp [fault?, State.sourceFault, Fault.toClass]
  | some t =>
    obtain ⟨kind, text, line⟩ := t
    cases kind with
    | pop | top =>
      have hvalue : (u.memory.stack.top?.isSome = true) ↔ u.memory.stack.size ≠ 0 := by
        rw [← Option.ne_none_iff_isSome, ne_eq, Stack.top?_eq_none_iff, Stack.isEmpty_iff]
      simp [fault?, State.value?, State.sourceFault, Fault.toClass, hvalue]
    | _ => simp [fault?, State.sourceFault, Fault.toClass]

end Plan

namespace Line

variable (labels : Labels) (l : Line) (vs : List Value) (u : State δ)

theorem toClass_of_residue_fail {f : Fault} (h : (l.plan labels).residue vs = .fail f) :
    f.toClass ≠ .outOfMemory ∧ f.toClass ≠ .stackUnderflow := by
  have hfollows := (l.plan_follows labels).residue vs
  rw [h] at hfollows
  have hclass : f.toClass.isValue = true ∨ f.toClass.isRole = true := hfollows.imp_right And.left
  constructor <;> intro heq <;> simp [heq, FaultClass.isValue, FaultClass.isRole] at hclass

theorem outOfMemory_iff :
    (((l.plan labels).residue vs).fault? u).map Fault.toClass = some .outOfMemory ↔
      l.MovesTo .push ∧ vs ≠ [] ∧ 65535 ≤ u.memory.stack.size ∨
      l.CallsWith labels vs ∧ 65535 ≤ u.calls.size ∨
      l.MovesTo .memory ∧ vs ≠ [] ∧ 65536 ≤ u.memory.address := by
  rw [← and_assoc, ← and_assoc, ← residue_limited_iff labels l vs (.inl rfl),
    ← residue_limited_iff labels l vs (.inr rfl), ← residue_call_iff]
  cases hr : (l.plan labels).residue vs with
  | done e => simpa [Plan.fault?] using e.outOfMemory_iff u
  | fail f => simpa [Plan.fault?] using (toClass_of_residue_fail labels l vs hr).1
  | read operand next => simpa using Plan.fault?_read_ne_outOfMemory operand next u

theorem stackUnderflow_iff :
    (((l.plan labels).residue vs).fault? u).map Fault.toClass = some .stackUnderflow ↔
      l.head.kind = .opcode .return ∧ u.calls.size = 0 ∨
      ∃ t, (t.kind = .pop ∨ t.kind = .top) ∧ l.nextSource? vs = some (some t) ∧
        u.memory.stack.size = 0 := by
  rw [← residue_return_iff labels l vs, ← asks_residue labels]
  cases hr : (l.plan labels).residue vs with
  | done e => simpa [Plan.fault?, Plan.asks] using e.stackUnderflow_iff u
  | fail f => simpa [Plan.fault?, Plan.asks] using (toClass_of_residue_fail labels l vs hr).2
  | read operand next => simpa [Plan.asks] using Plan.read_stackUnderflow_iff operand next u

theorem operands_of_kinds {l : Line} {k a b : TokenKind}
    (h : l.tokens.map Token.kind = [k, a, b]) :
    l.head.kind = k ∧ ∃ x y, l.operands = [x, y] ∧ x.kind = a ∧ y.kind = b := by
  obtain ⟨head, operands⟩ := l
  match operands with
  | [] | [_] | _ :: _ :: _ :: _ => simp [tokens] at h
  | [x, y] =>
    simp only [tokens, List.map_cons, List.map_nil, List.cons.injEq, and_true] at h
    exact ⟨h.1, x, y, rfl, h.2.1, h.2.2⟩

theorem movesTo_of_kinds {l : Line} {k k' : TokenKind}
    (h : l.tokens.map Token.kind = [.opcode .move, k, k']) : l.MovesTo k' := by
  obtain ⟨hop, x, y, hoperands, -, hy⟩ := operands_of_kinds h
  exact ⟨hop, by simp [hoperands, hy]⟩

theorem plan_of_move_push (labels : Labels) {l : Line} {k : TokenKind}
    (h : l.tokens.map Token.kind = [.opcode .move, k, .push]) :
    ∃ x : Token, x.kind = k ∧ l.plan labels = .read (some x) fun v => .done (.push v) := by
  obtain ⟨hop, x, y, hoperands, hx, hy⟩ := operands_of_kinds h
  exact ⟨x, hx, by simp [plan, hop, hoperands, Plan.ofOpcode, Plan.write, hy]⟩

end Line

namespace State

variable {p : Program} {s : State δ}

theorem step_of_move_pop_push (hs : s.status = .ready) (hlog : s.log = [])
    (hkinds : (p.line s.pc).tokens.map Token.kind = [.opcode .move, .pop, .push]) {v : Value}
    (htop : s.memory.stack.top? = some v) (hsize : s.memory.stack.size ≤ 65535) :
    (s.step p).1 = .ok .stepped ∧ (s.step p).2.memory.stack = s.memory.stack := by
  obtain ⟨x, hx, hplan⟩ := Line.plan_of_move_push p.labels hkinds
  have hvalue : s.value? x = some v := by simpa only [value?, hx] using htop
  have hback : s.memory.stack.drop.add v = s.memory.stack := Stack.add_drop_of_top? htop
  have hroom : s.memory.stack.drop.isFull = false := by
    rw [← Bool.not_eq_true, Stack.isFull_iff]
    have hadd := Stack.size_add s.memory.stack.drop v
    rw [hback] at hadd
    omega
  rw [step_of_ready hs hlog, plan, hplan, Plan.run, read_of_value? hvalue, hx]
  simp [Plan.run_done, Effect.fault?, consume, record, Memory.mapStack, hroom, Ending.report,
    Effect.apply, settle, hback]

theorem step_of_pop_pop (hs : s.status = .ready) (hlog : s.log = []) {op : BinaryOp}
    (hkinds : (p.line s.pc).tokens.map Token.kind = [.opcode (.binary op), .pop, .pop]) {v : Value}
    (hstack : s.memory.stack.items = #[v]) :
    s.Fails p .step (if v.isNumber then .stackUnderflow else .notANumber) := by
  obtain ⟨hop, x, y, hoperands, hx, hy⟩ := Line.operands_of_kinds hkinds
  have hplan : s.plan p = .readNumber (some x) fun m => .readNumber (some y) fun n =>
      .accumulate (.number (op.eval m n)) := by
    simp [plan, Line.plan, hop, hoperands, Plan.ofOpcode]
  have hvalue : s.value? x = some v := by simp [value?, hx, Stack.top?, hstack]
  have hnone : ((s.consume .pop).record v).value? y = none := by
    simp [value?, hy, consume, record, Memory.mapStack, Stack.top?, Stack.drop, hstack]
  change ∃ d, (s.step p).1 = .error d ∧ _
  rw [step_of_ready hs hlog, hplan, Plan.readNumber, Plan.run, read_of_value? hvalue, hx,
    Value.isNumber]
  unfold Value.toNumber
  dsimp only
  cases v.number? with
  | none => exact ⟨_, rfl, rfl⟩
  | some m =>
    dsimp only
    rw [Plan.readNumber, Plan.run, read_of_none (by rw [hy]; decide) hnone]
    refine ⟨_, rfl, ?_⟩
    simp [sourceFault, hy, Fault.inLine, Fault.toClass]

end State

/-! ### A full stack -/

namespace State

section

variable {p : Program} {s : State δ} {r : Register} (hs : s.status = .ready) (hlog : s.log = [])
  (hkinds : (p.line s.pc).tokens.map Token.kind = [.opcode .move, .register r, .push])

include hs hlog hkinds

theorem reached_of_move_push :
    s.gathered p .step ≠ [] ∧ (s.reached p .step).memory.stack = s.memory.stack := by
  obtain ⟨x, hx, hplan⟩ := Line.plan_of_move_push p.labels hkinds
  have hvalue : s.value? x = some (s.registers.get r) := by simp only [value?, hx]
  have hreadings : s.readings p .step = [(x, s.registers.get r)] := by
    simp [readings, admits, hs, takenUp, hlog, plan, hplan, Plan.residue, Plan.readings, hvalue]
  refine ⟨by simp [gathered, hreadings], ?_⟩
  simp [reached, hreadings, takenUp, afterReadings, consume, hx, record]

theorem step_of_move_push (hroom : s.memory.stack.isFull = false) :
    s.step p = (.ok .stepped,
      { s with
        pc := p.following s.pc
        memory := s.memory.mapStack (·.add (s.registers.get r)) }) := by
  obtain ⟨x, hx, hplan⟩ := Line.plan_of_move_push p.labels hkinds
  have hvalue : s.value? x = some (s.registers.get r) := by simp only [value?, hx]
  rw [step_of_ready hs hlog, plan, hplan, Plan.run, read_of_value? hvalue, hx]
  simp [Plan.run_done, Effect.fault?, consume, record, hroom, Ending.report, Effect.apply, settle,
    hlog]

end

/-- A line that pushes and comes back to itself fills the stack, one entry a step. -/
theorem stepMany_move_push {p : Program} {r : Register} (n : Nat) {s : State δ}
    (hs : s.status = .ready) (hlog : s.log = [])
    (hkinds : (p.line s.pc).tokens.map Token.kind = [.opcode .move, .register r, .push])
    (hloop : p.following s.pc = s.pc) (hn : s.memory.stack.size + n ≤ 65535) :
    (stepMany p n s).2.status = .ready ∧ (stepMany p n s).2.pc = s.pc ∧
      (stepMany p n s).2.memory.stack.size = s.memory.stack.size + n := by
  induction n generalizing s with
  | zero => exact ⟨hs, rfl, rfl⟩
  | succ n ih =>
    have hroom : s.memory.stack.isFull = false := by
      rw [← Bool.not_eq_true, Stack.isFull_iff]
      omega
    have hstep := step_of_move_push hs hlog hkinds hroom
    have hsize := Stack.size_add s.memory.stack (s.registers.get r)
    rw [hloop] at hstep
    simp only [stepMany, hstep]
    obtain ⟨hready, hpc, hfilled⟩ := ih (s := { s with
      memory := s.memory.mapStack (·.add (s.registers.get r)) }) hs hlog hkinds hloop
      (by simp only [Memory.mapStack, hsize]; omega)
    refine ⟨hready, hpc, hfilled.trans ?_⟩
    simp only [Memory.mapStack, hsize]
    omega

end State

/-! ### Exact limits -/

/-- In a reachable state the stacks and the cells are within their limits. A call runs out of memory
exactly if it comes to a move whose source was read and that finds the value stack full or the
address out of range, or to a call of a known place with the call stack full. It meets an empty
stack exactly if it returns with no call underway, or pops or peeks when nothing is left. So a move
from the stack to itself completes however full the stack is, and an operation that pops twice fails
on a single entry. -/
theorem resource_limits_exact {p : Program} {s : State δ} (h : Reachable p s) :
    s.WithinLimits ∧
    (∀ c, s.Fails p c .outOfMemory ↔ s.admits c = true ∧
      ((p.line s.pc).MovesTo .push ∧ s.gathered p c ≠ [] ∧
          (s.reached p c).memory.stack.size = 65535 ∨
        (p.line s.pc).CallsWith p.labels (s.gathered p c) ∧ s.calls.size = 65535 ∨
        (p.line s.pc).MovesTo .memory ∧ s.gathered p c ≠ [] ∧ 65536 ≤ s.memory.address)) ∧
    (∀ c, s.Fails p c .stackUnderflow ↔ s.admits c = true ∧
      ((p.line s.pc).head.kind = .opcode .return ∧ s.calls.size = 0 ∨
        ∃ t, (t.kind = .pop ∨ t.kind = .top) ∧
          (p.line s.pc).nextSource? (s.gathered p c) = some (some t) ∧
          (s.reached p c).memory.stack.size = 0)) ∧
    (s.status = .ready →
      (p.line s.pc).tokens.map Token.kind = [.opcode .move, .pop, .push] →
      s.memory.stack.size ≠ 0 →
        (s.step p).1 = .ok .stepped ∧ (s.step p).2.memory.stack = s.memory.stack) ∧
    (s.status = .ready → ∀ op,
      (p.line s.pc).tokens.map Token.kind = [.opcode (.binary op), .pop, .pop] →
      s.memory.stack.size = 1 →
        ∃ v, s.memory.stack.top? = some v ∧
          s.Fails p .step (if v.isNumber then .stackUnderflow else .notANumber)) := by
  have hs := h.consistent
  have hlimits := h.withinLimits
  have hlog : s.status = .ready → s.log = [] := by
    intro hready
    simpa only [State.Consistent, hready] using hs
  refine ⟨hlimits, ?_, ?_, ?_, ?_⟩
  · intro c
    have hread := State.consumed_reached p s c
    have hmax : ∀ {n : Nat}, n ≤ 65535 → (65535 ≤ n ↔ n = 65535) := by omega
    rw [hs.fails_iff c (by decide), State.plan, Line.outOfMemory_iff, hread.calls, hread.address,
      hmax (hread.withinLimits hlimits).stack, hmax hlimits.calls]
  · intro c
    rw [hs.fails_iff c (by decide), State.plan, Line.stackUnderflow_iff,
      (State.consumed_reached p s c).calls]
  · intro hready hkinds hsize
    cases htop : s.memory.stack.top? with
    | none => exact absurd ((Stack.isEmpty_iff _).1 ((Stack.top?_eq_none_iff _).1 htop)) hsize
    | some v => exact State.step_of_move_pop_push hready (hlog hready) hkinds htop hlimits.stack
  · intro hready op hkinds hsize
    obtain ⟨v, hstack⟩ := Array.size_eq_one_iff.1 hsize
    refine ⟨v, by simp [Stack.top?, hstack], ?_⟩
    exact State.step_of_pop_pop hready (hlog hready) hkinds hstack

end

/-- The stack can be filled, and is then refused another entry; and a single entry is not enough
for an operation that pops twice. -/
theorem limits_of_full_and_nearly_empty_stacks :
    let p := (Program.load "mov acc push").toOption.getD default
    let q := (Program.load "mov 1 push\nadd pop pop").toOption.getD default
    let single := ((State.initial 0 (Tape.ofList [])).step q).2
    (∃ full : State Tape, Reachable p full ∧ full.memory.stack.size = 65535 ∧
      full.Fails p .step .outOfMemory) ∧
    single.memory.stack.size = 1 ∧ single.Fails q .step .stackUnderflow := by
  intro p q single
  refine ⟨?_, by decide +kernel, ?_⟩
  · have hkinds : (p.line 0).tokens.map Token.kind = [.opcode .move, .register .acc, .push] := by
      decide +kernel
    -- the number of steps is a variable, so that they are not made one by one
    obtain ⟨n, hn⟩ : ∃ n, n = 65535 := ⟨_, rfl⟩
    have hreach : Reachable p (State.stepMany p n (.initial 0 (Tape.ofList []))).2 :=
      State.reachable_stepMany (.boot (.ofSeed 0) _) n
    obtain ⟨hready, hpc, hsize⟩ := State.stepMany_move_push n (p := p)
      (s := .initial 0 (Tape.ofList [])) rfl rfl hkinds (by decide +kernel)
      (by rw [hn]; exact Nat.le_refl _)
    generalize (State.stepMany p n (.initial 0 (Tape.ofList []))).2 = full at *
    have hfull : full.memory.stack.size = 65535 := by rw [hsize, hn]; rfl
    have hlog : full.log = [] := by simpa only [State.Consistent, hready] using hreach.consistent
    have hline : (p.line full.pc).tokens.map Token.kind =
        [.opcode .move, .register .acc, .push] := by rw [hpc]; exact hkinds
    obtain ⟨hread, hstack⟩ := State.reached_of_move_push hready hlog hline
    refine ⟨full, hreach, hfull, ?_⟩
    refine ((resource_limits_exact hreach).2.1 .step).2 ⟨beq_iff_eq.2 hready, .inl ⟨?_, hread, ?_⟩⟩
    · exact Line.movesTo_of_kinds hline
    · rw [hstack, hfull]
  · have hsingle : Reachable q single := .call (.boot (.ofSeed 0) _) .step
    obtain ⟨v, hv, hfails⟩ := (resource_limits_exact hsingle).2.2.2.2 (by decide +kernel) .add
      (by decide +kernel) (by decide +kernel)
    have htop : single.memory.stack.top?.any Value.isNumber = true := by decide +kernel
    rw [hv, Option.any_some] at htop
    rwa [if_pos htop] at hfails

end LineAsm
