import LineAsm.Proofs.Control
import LineAsm.Proofs.Following
import Mathlib.Control.Monad.Basic

set_option autoImplicit false

/-!
# Subroutines

A call saves its own line, and the matching return goes on after it. What lies below the saved line
on the call stack is out of reach until then, whatever the subroutine does.
-/

namespace LineAsm

namespace Stack

variable {α : Type}

/-- The entries of `base` lie at the bottom of the stack. -/
def IsBase (base s : Stack α) : Prop := ∃ above : Array α, s = ⟨base.name, base.items ++ above⟩

theorem IsBase.refl (s : Stack α) : s.IsBase s := ⟨#[], by rw [Array.append_empty]⟩

theorem IsBase.add {base s : Stack α} (h : base.IsBase s) (a : α) : base.IsBase (s.add a) := by
  obtain ⟨above, rfl⟩ := h
  exact ⟨above.push a, by rw [Stack.add, Array.push_append]⟩

theorem IsBase.drop {base s : Stack α} (h : base.IsBase s) (hlt : base.size < s.size) :
    base.IsBase s.drop := by
  obtain ⟨above, rfl⟩ := h
  have hne : above ≠ #[] := by
    rintro rfl
    simp [size] at hlt
  exact ⟨above.pop, by rw [Stack.drop, Array.pop_append_of_ne_empty hne]⟩

theorem IsBase.size_le {base s : Stack α} (h : base.IsBase s) : base.size ≤ s.size := by
  obtain ⟨above, rfl⟩ := h
  simp only [size, Array.size_append]
  omega

theorem IsBase.eq_of_size_le {base s : Stack α} (h : base.IsBase s) (hle : s.size ≤ base.size) :
    s = base := by
  obtain ⟨above, rfl⟩ := h
  have hempty : above = #[] := by
    simp only [size, Array.size_append] at hle
    exact Array.size_eq_zero_iff.1 (by omega)
  rw [hempty, Array.append_empty]

end Stack

variable {δ : Type}

namespace ControlStep

theorem calls_of_call {p : Program} {s u : State δ} {a : Except Diagnostic Event}
    (h : ControlStep p s (some a) u) (hop : (p.line s.pc).head.kind = .opcode .call)
    (ha : a = .ok .stepped) : u.calls = s.calls.add s.pc := by
  cases h with
  | rests hne _ _ => exact absurd (congrArg some ha) hne
  | passes hne _ _ _ => exact absurd hop hne
  | enters _ _ _ hcalls => exact hcalls
  | returns hret _ _ _ _ =>
    rw [hop] at hret
    cases hret

theorem isBase {p : Program} {s u : State δ} {a : Option (Except Diagnostic Event)}
    {base : Stack Nat} (h : ControlStep p s a u) (hs : base.IsBase s.calls)
    (hle : base.size ≤ u.calls.size) : base.IsBase u.calls := by
  cases h with
  | rests _ _ hcalls => exact hcalls ▸ hs
  | passes _ _ _ hcalls => exact hcalls ▸ hs
  | enters _ _ _ hcalls => exact hcalls ▸ hs.add s.pc
  | returns _ i htop _ hcalls =>
    have hsize := congrArg Stack.size (Stack.add_drop_of_top? htop)
    rw [Stack.size_add] at hsize
    rw [hcalls] at hle ⊢
    exact hs.drop (by omega)

theorem returns_of_size_lt {p : Program} {s u : State δ} {a : Option (Except Diagnostic Event)}
    {base : Stack Nat} {i : Nat} (h : ControlStep p s a u) (hs : (base.add i).IsBase s.calls)
    (hle : u.calls.size ≤ base.size) :
    (p.line s.pc).head.kind = .opcode .return ∧ a = some (.ok .stepped) ∧ u.calls = base ∧
      u.pc = p.following i := by
  have hsize : base.size + 1 ≤ s.calls.size := Stack.size_add base i ▸ hs.size_le
  cases h with
  | rests _ _ hcalls =>
    rw [hcalls] at hle
    omega
  | passes _ _ _ hcalls =>
    rw [hcalls] at hle
    omega
  | enters _ _ _ hcalls =>
    rw [hcalls, Stack.size_add] at hle
    omega
  | returns hop j htop hpc hcalls =>
    rw [hcalls, Stack.size_drop] at hle
    have htrim : s.calls = base.add i := hs.eq_of_size_le (by rw [Stack.size_add]; omega)
    rw [htrim] at htop hcalls
    obtain rfl : i = j := Option.some.inj ((Stack.top?_add base i).symm.trans htop)
    exact ⟨hop, rfl, hcalls.trans (Stack.drop_add base i), hpc⟩

end ControlStep

variable [Device δ]

theorem State.Consistent.isBase_served {p : Program} {s : State δ} {base : Stack Nat}
    (h : s.Consistent p) (hs : base.IsBase s.calls) {rs : List (Request δ)}
    (hdepth : ∀ x ∈ exchanges (State.serve p) s rs, base.size ≤ x.after.calls.size) :
    base.IsBase (served (State.serve p) s rs).calls := by
  induction rs generalizing s with
  | nil => exact hs
  | cons r rs ih =>
    obtain ⟨hfirst, hrest⟩ := List.forall_mem_cons.1 hdepth
    exact ih (h.serve r) ((h.control r).isBase hs hfirst) hrest

theorem Reachable.step_return_of_isEmpty {p : Program} {s : State δ} (h : Reachable p s)
    (hop : (p.line s.pc).head.kind = .opcode .return) (hempty : s.calls.isEmpty = true) :
    s.step p = (.error ⟨.stackUnderflow, some s.pc, "CALL STACK IS EMPTY"⟩, s) := by
  have hplan : s.plan p = .done .return := by simp only [State.plan, Line.plan, hop, Plan.ofOpcode]
  have hs := h.consistent
  cases hstatus : s.status with
  | waiting =>
    -- the plan of a return reads nothing, so it cannot be suspended
    simp only [State.Consistent, hstatus] at hs
    obtain ⟨t, next, -, rs, hl, -⟩ := hs
    rw [hplan] at hl
    cases hl
  | ready =>
    have hlog : s.log = [] := by simpa only [State.Consistent, hstatus] using hs
    have hsettle : s.settle = s := by rw [State.settle, ← hlog]
    have hfault : Effect.fault? .return s = some (.emptyStack "CALL STACK") := by
      rw [Effect.fault?, if_pos hempty, h.callsOrdered.name]
    simp only [State.step, hstatus, State.dispatch_eq_report, hplan, Plan.run_done, hfault,
      Ending.report, hsettle]
    rfl

/-- In every reachable state the call stack holds lines with calls. Once a call is completed, its
line lies on top of the stack as it was; as long as it is not taken off, nothing below it changes;
and only a return takes it off, which restores the stack and goes on with the line after the call.
A return on an empty stack fails and changes nothing. -/
theorem subroutine_discipline {p : Program} {s : State δ} (h : Reachable p s) :
    (∀ i ∈ s.calls.items, i < p.size ∧ (p.line i).head.kind = .opcode .call) ∧
    (∀ c, (p.line s.pc).head.kind = .opcode .call → (s.call p c).1 = .ok .stepped →
      (s.call p c).2.calls = s.calls.add s.pc ∧
      ∀ rs r,
        let within := exchanges (State.serve p) (s.call p c).2 rs
        let u := served (State.serve p) (s.call p c).2 rs
        (∀ x ∈ within, s.calls.size + 1 ≤ x.after.calls.size) →
        (u.serve p r).2.calls.size ≤ s.calls.size →
        (p.line u.pc).head.kind = .opcode .return ∧ (u.serve p r).1 = some (.ok .stepped) ∧
          (u.serve p r).2.calls = s.calls ∧ (u.serve p r).2.pc = p.following s.pc ∧
          p.IsNext s.pc (u.serve p r).2.pc) ∧
    ((p.line s.pc).head.kind = .opcode .return → s.calls.isEmpty = true →
      s.step p = (.error ⟨.stackUnderflow, some s.pc, "CALL STACK IS EMPTY"⟩, s)) := by
  refine ⟨?_, ?_, h.step_return_of_isEmpty⟩
  · intro i hi
    have hop := h.callsOrdered.opcode i hi
    exact ⟨(Program.isExecutable_of_opcode hop).1, hop⟩
  intro c hop hstepped
  have hcalls := (h.consistent.control (.call c)).calls_of_call hop hstepped
  refine ⟨hcalls, ?_⟩
  intro rs r within u hdepth hback
  have hbase : (s.calls.add s.pc).IsBase u.calls := by
    apply State.Consistent.isBase_served (h.call c).consistent
    · exact hcalls ▸ .refl _
    · rwa [Stack.size_add]
  have hu : u.Consistent p := ((h.call c).served rs).consistent
  obtain ⟨hret, hdone, hsame, hpc⟩ := (hu.control r).returns_of_size_lt hbase hback
  have hexec := (Program.isExecutable_of_opcode hop).2
  exact ⟨hret, hdone, hsame, hpc, hpc ▸ Program.following_isNext hexec s.pc⟩

/-- The subroutine calls another one before it returns. -/
theorem subroutine_discipline_nested :
    let p := (Program.load "jsr @f\nmov 1 r0\n@f\njsr @g\nret\n@g\nret").toOption.getD default
    let s := State.initial 0 (Tape.ofList [])
    let called := s.call p .step
    let last := (served (State.serve p) called.2 [.call .step, .call .step]).serve p (.call .step)
    called.1 = .ok .stepped ∧ last.2.calls = s.calls ∧ p.IsNext s.pc last.2.pc := by
  intro p s
  have hs : Reachable p s := .boot (.ofSeed 0) (Tape.ofList [])
  have hstepped : (s.call p .step).1 = .ok .stepped := by decide +kernel
  have h := ((subroutine_discipline hs).2.1 .step (by decide +kernel) hstepped).2
    [.call .step, .call .step] (.call .step) (by decide +kernel) (by decide +kernel)
  exact ⟨hstepped, h.2.2.1, h.2.2.2.2⟩

end LineAsm
