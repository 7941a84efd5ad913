import LineAsm.Proofs.Reachable
import Mathlib.Control.Monad.Basic

set_option autoImplicit false

/-!
# Calls that do not complete

There is no rollback: an instruction that fails or suspends has read operands, and what they took
from the value stack, the generator and the device is gone. Nothing else has changed. Neither the
program nor its labels are part of the state, so no call changes them.
-/

namespace LineAsm

variable {δ : Type} [Device δ]

theorem State.Consistent.readings_infix {p : Program} {s : State δ} (h : s.Consistent p)
    (c : Call) : ((s.readings p c).map fun r => some r.1) <:+: (p.line s.pc).sources := by
  cases hc : s.admits c with
  | false =>
    rw [readings, hc, if_neg Bool.false_ne_true]
    exact List.nil_infix
  | true =>
    obtain ⟨rs, r, -, -, hl, -⟩ := h.exists_ends hc
    obtain ⟨rest, hsrc, -⟩ := hl.follows ((p.line s.pc).plan_follows p.labels)
    exact ⟨rs.map fun x => some x.1, rest, by rw [hsrc, List.map_append]⟩

theorem Consumed.settle {a b c : Nat} {s u : State δ} (h : Consumed a b c s u) :
    Consumed a b c s u.settle := { h with }

theorem Consumed.suspend {a b c : Nat} {s u : State δ} (h : Consumed a b c s u) :
    Consumed a b (c + 1) s { u.consume .input with status := .waiting } := by
  have hd : (Device.request u.device).2 = Device.requested (c + 1) s.device := by
    rw [requested_add, ← h.device]
    rfl
  exact { h with device := hd }

theorem FaultClass.ne_noPendingInput_of_isRuntime {k : FaultClass} (h : k.isRuntime = true) :
    k ≠ .noPendingInput := by
  rintro rfl
  cases h

theorem FaultClass.ne_noPendingInput_of_isRole {k : FaultClass} (h : k.isRole = true) :
    k ≠ .noPendingInput := by
  rintro rfl
  cases h

namespace State.Consistent

theorem refused_call {p : Program} {s : State δ} {c : Call} {d : Diagnostic}
    (h : s.Consistent p) (hc : s.admits c = false) (hd : (s.call p c).1 = .error d) :
    (s.call p c).2 = s ∧ s.status = .ready ∧ s.log = [] ∧ d.line = some s.pc ∧
      s.readings p c = [] := by
  have hr : s.readings p c = [] := by rw [readings, hc, if_neg Bool.false_ne_true]
  rw [call_of_not_admits hc] at hd ⊢
  cases c with
  | step => cases hd
  | enter v =>
    cases hd
    cases hs : s.status with
    | ready =>
      simp only [Consistent, hs] at h
      exact ⟨rfl, rfl, h, rfl, hr⟩
    | waiting => simp [admits, hs] at hc

theorem failed_call {p : Program} {s : State δ} {c : Call} {d : Diagnostic}
    (h : s.Consistent p) (hc : s.admits c = true) (hd : (s.call p c).1 = .error d) :
    (s.call p c).2 = (s.reached p c).settle ∧ d.line = some s.pc ∧ d.kind ≠ .noPendingInput := by
  obtain ⟨rs, r, ending, -, hl, he, heq⟩ := h.exists_ends hc
  rw [heq] at hd ⊢
  cases ending with
  | completed u => cases hd
  | suspended u => cases hd
  | failed f u =>
    cases hd
    have hsame : u = s.reached p c := by cases he <;> rfl
    refine ⟨by rw [← hsame]; rfl, rfl, ?_⟩
    rcases Line.fault_class hl he with hk | ⟨hk, -⟩
    · exact FaultClass.ne_noPendingInput_of_isRuntime hk
    · exact FaultClass.ne_noPendingInput_of_isRole hk

theorem suspended_call {p : Program} {s : State δ} {c : Call} (h : s.Consistent p)
    (hd : (s.call p c).1 = .ok .input) :
    (s.call p c).2 = { (s.reached p c).consume .input with status := .waiting } := by
  cases hc : s.admits c with
  | false =>
    rw [call_of_not_admits hc] at hd
    cases c <;> cases hd
  | true =>
    obtain ⟨-, r, ending, -, -, he, heq⟩ := h.exists_ends hc
    rw [heq] at hd ⊢
    cases he with
    | suspended _ _ => rfl
    | completed _ | refused _ | failed _ | unreadable _ _ => cases hd

end State.Consistent

/-- Whatever call is made in a reachable state: if it fails, the machine is ready with an empty
log, the diagnostic names the line at the program counter, and only what the operands read took is
gone; if it suspends, the machine waits, and the device was asked once more. A value entered
without need changes nothing. -/
theorem unfinished_call_only_consumes {p : Program} {s : State δ} (h : Reachable p s) (c : Call) :
    ((s.readings p c).map fun r => some r.1) <:+: (p.line s.pc).sources ∧
    (∀ d, (s.call p c).1 = .error d →
      Consumed (countKind .pop (s.readings p c)) (countKind .random (s.readings p c))
        (countKind .input (s.readings p c)) s (s.call p c).2 ∧
      (s.call p c).2.status = .ready ∧ (s.call p c).2.log = [] ∧ d.line = some s.pc ∧
      (d.kind = .noPendingInput → (s.call p c).2 = s)) ∧
    ((s.call p c).1 = .ok .input →
      Consumed (countKind .pop (s.readings p c)) (countKind .random (s.readings p c))
        (countKind .input (s.readings p c) + 1) s (s.call p c).2 ∧
      (s.call p c).2.status = .waiting) := by
  have hs := h.consistent
  refine ⟨hs.readings_infix c, ?_, ?_⟩
  · intro d hd
    cases hc : s.admits c with
    | false =>
      obtain ⟨hsame, hready, hlog, hline, hread⟩ := hs.refused_call hc hd
      rw [hsame, hread]
      exact ⟨.refl s, hready, hlog, hline, fun _ => rfl⟩
    | true =>
      obtain ⟨hsame, hline, hkind⟩ := hs.failed_call hc hd
      rw [hsame]
      exact ⟨(State.consumed_reached p s c).settle, State.reached_status hc, rfl, hline,
        fun hk => absurd hk hkind⟩
  · intro hd
    rw [hs.suspended_call hd]
    exact ⟨(State.consumed_reached p s c).suspend, rfl⟩

/-- A value is popped first; then one instruction waits for input, and the other one finds that what
was popped is no number. -/
theorem unfinished_call_after_pop :
    let p := (Program.load "mov 'a' push\ncat pop in").toOption.getD default
    let q := (Program.load "mov 'a' push\nadd pop 1").toOption.getD default
    let s := ((State.initial 0 (Tape.ofList [])).call p .step).2
    let u := ((State.initial 0 (Tape.ofList [])).call q .step).2
    ((s.call p .step).1 = .ok .input ∧ Consumed 1 0 1 s (s.call p .step).2 ∧
      (s.call p .step).2.status = .waiting) ∧
    ∃ d, (u.call q .step).1 = .error d ∧ d.kind = .notANumber ∧ d.line = some 1 ∧
      Consumed 1 0 0 u (u.call q .step).2 ∧ (u.call q .step).2.status = .ready ∧
      (u.call q .step).2.log = [] := by
  intro p q s u
  constructor
  · have hs : Reachable p s := .call (.boot (.ofSeed 0) _) .step
    have hi : (s.call p .step).1 = .ok .input := by decide +kernel
    have hr : s.readings p .step = [(⟨.pop, "POP", 1⟩, .text "a")] := by decide +kernel
    obtain ⟨hconsumed, hstatus⟩ := (unfinished_call_only_consumes hs .step).2.2 hi
    rw [hr] at hconsumed
    exact ⟨hi, hconsumed, hstatus⟩
  · have hu : Reachable q u := .call (.boot (.ofSeed 0) _) .step
    have hd : (u.call q .step).1 = .error ((Fault.notANumber "\"a\"").inLine 1) := by decide +kernel
    have hr : u.readings q .step = [(⟨.pop, "POP", 1⟩, .text "a")] := by decide +kernel
    have hpc : u.pc = 1 := by decide +kernel
    obtain ⟨hconsumed, hstatus, hlog, hline, -⟩ :=
      (unfinished_call_only_consumes hu .step).2.1 _ hd
    rw [hr] at hconsumed
    rw [hpc] at hline
    exact ⟨_, hd, rfl, hline, hconsumed, hstatus, hlog⟩

end LineAsm
