import LineAsm.Proofs.Requests

set_option autoImplicit false

/-!
# The cursor of an instruction

An execution goes through its log with a cursor: operands before the cursor have their values, the
operand at the cursor takes its value from the log or, past the end of the log, from its source. The
machine of the library hands the rest of the log from operand to operand instead. A tracked machine
keeps the cursor, and is the same machine otherwise; between calls its cursor is at the end of the
log.
-/

namespace LineAsm

/-- A state with the cursor of the instruction underway. -/
structure Tracked (δ : Type) where
  state : State δ
  cursor : Nat

variable {δ : Type} [Device δ]

/-- Executes a plan from the cursor on, and gives the cursor in the end too. -/
def Plan.runAt (p : Program) (cursor : Nat) (s : State δ) : Plan → Ending δ × Nat
  | .done e =>
    match e.fault? s with
    | none => (.completed (e.apply p s), cursor)
    | some f => (.failed f s, cursor)
  | .fail f => (.failed f s, cursor)
  | .read operand next =>
    match s.log[cursor]? with
    | some v => (next v).runAt p (cursor + 1) s
    | none =>
      match s.read operand with
      | .value v s => (next v).runAt p (cursor + 1) (s.record v)
      | .suspended s => (.suspended s, cursor)
      | .failed f s => (.failed f s, cursor)

namespace Tracked

def boot (generator : Generator) (device : δ) : Tracked δ := ⟨.boot generator device, 0⟩

def dispatch (p : Program) (m : Tracked δ) : Except Diagnostic Event × Tracked δ :=
  match (m.state.plan p).runAt p 0 m.state with
  | (.completed s, _) => (.ok .stepped, ⟨{ s.settle with pc := p.following s.pc }, 0⟩)
  | (.suspended s, cursor) => (.ok .input, ⟨s, cursor⟩)
  | (.failed f s, _) => (.error (f.inLine m.state.pc), ⟨s.settle, 0⟩)

def call (p : Program) (m : Tracked δ) (c : Call) : Except Diagnostic Event × Tracked δ :=
  match c, m.state.status with
  | .step, .ready => m.dispatch p
  | .step, .waiting => (.ok .waiting, m)
  | .enter _, .ready => (.error (Fault.noPendingInput.inLine m.state.pc), m)
  | .enter v, .waiting =>
    dispatch p { m with state := { m.state with status := .ready }.record v }

def serve (p : Program) (m : Tracked δ) :
    Request δ → Option (Except Diagnostic Event) × Tracked δ
  | .call c => (some (m.call p c).1, (m.call p c).2)
  | .reseed seed => (none, { m with state := m.state.reseed seed })
  | .attach device => (none, { m with state := { m.state with device } })

end Tracked

def Reading.state : Reading δ → State δ
  | .value _ s => s
  | .suspended s => s
  | .failed _ s => s

theorem State.read_log (s : State δ) (operand : Option Token) :
    (s.read operand).state.log = s.log := by
  cases operand with
  | none => rfl
  | some t =>
    cases hv : s.value? t with
    | some v =>
      rw [read_of_value? hv]
      exact consume_log s t.kind
    | none =>
      by_cases ht : t.kind = .input
      · rw [read_input_of_none ht hv]
        exact consume_log s .input
      · rw [read_of_none ht hv]
        rfl

namespace Plan

theorem runAt_fst (p : Program) (q : Plan) (cursor : Nat) (s : State δ) :
    (q.runAt p cursor s).1 = q.run p (s.log.drop cursor) s := by
  induction q generalizing cursor s with
  | done e =>
    rw [runAt, run_done]
    cases e.fault? s <;> rfl
  | fail f => rfl
  | read operand next ih =>
    unfold runAt
    cases hv : s.log[cursor]? with
    | some v =>
      obtain ⟨hlt, rfl⟩ := List.getElem?_eq_some_iff.1 hv
      rw [List.drop_eq_getElem_cons hlt]
      exact ih _ (cursor + 1) s
    | none =>
      have hle : s.log.length ≤ cursor := List.getElem?_eq_none_iff.1 hv
      rw [List.drop_eq_nil_of_le hle]
      unfold run
      dsimp only
      cases hr : s.read operand with
      | suspended u => rfl
      | failed f u => rfl
      | value v u =>
        have hlog : u.log = s.log := by rw [← s.read_log operand, hr]; rfl
        have hend : (u.record v).log.length ≤ cursor + 1 := by
          rw [State.record, hlog, List.length_append]
          exact Nat.add_le_add_right hle 1
        have h := ih v (cursor + 1) (u.record v)
        rwa [List.drop_eq_nil_of_le hend] at h

theorem runAt_snd {p : Program} {q : Plan} {cursor : Nat} {s u : State δ}
    (hc : cursor ≤ s.log.length) (h : (q.runAt p cursor s).1 = .suspended u) :
    (q.runAt p cursor s).2 = u.log.length := by
  induction q generalizing cursor s with
  | done e =>
    unfold runAt at h
    cases hf : e.fault? s <;> simp only [hf] at h <;> cases h
  | fail f => cases h
  | read operand next ih =>
    unfold runAt at h ⊢
    cases hv : s.log[cursor]? with
    | some v =>
      simp only [hv] at h ⊢
      obtain ⟨hlt, -⟩ := List.getElem?_eq_some_iff.1 hv
      exact ih v hlt h
    | none =>
      have hlen : cursor = s.log.length := Nat.le_antisymm hc (List.getElem?_eq_none_iff.1 hv)
      simp only [hv] at h ⊢
      have hlog := s.read_log operand
      cases hr : s.read operand with
      | failed f w =>
        rw [hr] at h
        cases h
      | suspended w =>
        rw [hr] at h hlog
        cases h
        rw [hlen, ← hlog]
        rfl
      | value v w =>
        rw [hr] at h hlog
        refine ih v ?_ h
        rw [State.record, List.length_append, hlen, ← hlog]
        exact Nat.le_refl _

end Plan

namespace Tracked

theorem dispatch_eq (p : Program) (m : Tracked δ) :
    ((m.dispatch p).1, (m.dispatch p).2.state) = m.state.dispatch p := by
  have h := Plan.runAt_fst p (m.state.plan p) 0 m.state
  rw [List.drop_zero] at h
  rw [State.dispatch_eq_report, ← h, dispatch]
  obtain ⟨ending, cursor⟩ := (m.state.plan p).runAt p 0 m.state
  cases ending <;> rfl

/-- But for its cursor, a tracked machine is the machine of the library. -/
theorem call_eq (p : Program) (m : Tracked δ) (c : Call) :
    ((m.call p c).1, (m.call p c).2.state) = m.state.call p c := by
  unfold call
  cases c with
  | step =>
    unfold State.call State.step
    cases m.state.status with
    | ready => exact dispatch_eq p m
    | waiting => rfl
  | enter v =>
    unfold State.call State.enter
    cases m.state.status with
    | ready => rfl
    | waiting => exact dispatch_eq p _

theorem cursor_dispatch (p : Program) (m : Tracked δ) :
    (m.dispatch p).2.cursor = (m.dispatch p).2.state.log.length := by
  have h := fun u => Plan.runAt_snd (u := u) (p := p) (q := m.state.plan p)
    (Nat.zero_le m.state.log.length)
  unfold dispatch
  generalize (m.state.plan p).runAt p 0 m.state = run at h ⊢
  obtain ⟨ending, cursor⟩ := run
  cases ending with
  | completed u => rfl
  | failed f u => rfl
  | suspended u => exact h u rfl

theorem cursor_call {p : Program} {m : Tracked δ} (h : m.cursor = m.state.log.length)
    (c : Call) : (m.call p c).2.cursor = (m.call p c).2.state.log.length := by
  unfold call
  cases c <;> cases m.state.status <;> first | exact h | exact cursor_dispatch p _

theorem call_of_refused {p : Program} {m : Tracked δ} {c : Call} (h : m.state.admits c = false) :
    m.call p c =
      (match c with
        | .step => .ok .waiting
        | .enter _ => .error (Fault.noPendingInput.inLine m.state.pc), m) := by
  unfold call
  cases c with
  | step =>
    cases hs : m.state.status with
    | ready => simp [State.admits, hs] at h
    | waiting => rfl
  | enter v =>
    cases hs : m.state.status with
    | ready => rfl
    | waiting => simp [State.admits, hs] at h

end Tracked

end LineAsm
