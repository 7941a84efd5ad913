import LineAsm.Proofs.Attended

set_option autoImplicit false

/-!
# The roles of operands

Whether a line is well formed is seen from its tokens and the labels. A well formed line is never
at fault for an operand in the wrong role, whatever its operands turn out to be and however often
the machine suspends it. A line that is not well formed never completes.
-/

namespace LineAsm

variable {δ : Type} [Device δ]

theorem FaultClass.isRole_of_isRuntime {k : FaultClass} (h : k.isRuntime = true) :
    k.isRole = false := by
  cases k <;> first | rfl | cases h

namespace State.Consistent

theorem isRole_of_isWellFormed {p : Program} {s : State δ} {c : Call} {d : Diagnostic}
    (h : s.Consistent p) (hw : (p.line s.pc).isWellFormed p.labels = true)
    (hd : (s.call p c).1 = .error d) : d.kind.isRole = false := by
  cases hc : s.admits c with
  | false =>
    rw [call_of_not_admits hc] at hd
    cases c with
    | step => cases hd
    | enter v =>
      cases hd
      rfl
  | true =>
    obtain ⟨rs, r, ending, -, hl, he, heq⟩ := h.exists_ends hc
    rw [heq] at hd
    cases ending with
    | completed u => cases hd
    | suspended u => cases hd
    | failed f u =>
      cases hd
      rcases Line.fault_class hl he with hk | ⟨-, hbad⟩
      · exact FaultClass.isRole_of_isRuntime hk
      · rw [hw] at hbad
        cases hbad

theorem error_of_not_isWellFormed {p : Program} {s : State δ} {c : Call} (h : s.Consistent p)
    (hw : (p.line s.pc).isWellFormed p.labels = false) (hc : s.admits c = true)
    (hi : (s.call p c).1 ≠ .ok .input) : ∃ d, (s.call p c).1 = .error d := by
  obtain ⟨-, -, ending, -, -, -, heq⟩ := h.exists_ends hc
  cases ending with
  | completed u =>
    obtain ⟨-, hgood, -⟩ := h.completed_call (c := c) (by rw [heq]; rfl)
    rw [hw] at hgood
    cases hgood
  | suspended u => exact absurd (by rw [heq]; rfl) hi
  | failed f u => exact ⟨f.inLine s.pc, by rw [heq]; rfl⟩

end State.Consistent

/-- In a reachable state no call on a well formed line has a fault of a role. No call on another
line completes: given as many values as the line has inputs, every attempt ends in an error. -/
theorem isWellFormed_decides_roles {p : Program} {s : State δ} (h : Reachable p s) :
    ((p.line s.pc).isWellFormed p.labels = true →
      ∀ c d, (s.call p c).1 = .error d → d.kind.isRole = false) ∧
    ((p.line s.pc).isWellFormed p.labels = false →
      (∀ c, (s.call p c).1 ≠ .ok .stepped) ∧
      ∀ c vs, s.admits c = true → (p.line s.pc).sourceCount .input ≤ vs.length →
        ∃ d, (State.answer p vs (s.call p c)).1.1 = .error d) := by
  have hs := h.consistent
  refine ⟨fun hw c d hd => hs.isRole_of_isWellFormed hw hd, fun hw => ⟨?_, ?_⟩⟩
  · intro c hd
    obtain ⟨-, hgood, -⟩ := hs.completed_call hd
    rw [hw] at hgood
    cases hgood
  · intro c vs hc hvs
    have hleft : (s.takenUp c).inputsLeft p ≤ vs.length := by
      refine Nat.le_trans (State.inputsLeft_le p _) ?_
      rwa [State.takenUp_pc]
    obtain ⟨u, k, hu, hk, hpc, hans, hi⟩ := hs.exists_last_call hc hleft
    rw [hans]
    rw [← hpc] at hw
    exact hu.error_of_not_isWellFormed hw hk hi

/-- A move from an empty stack fails, but not for its roles; a destination read as a source fails
after the input before it was entered. -/
theorem roles_of_move_and_concat :
    let p := (Program.load "mov pop push").toOption.getD default
    let q := (Program.load "cat in push").toOption.getD default
    let s := State.initial 0 (Tape.ofList [])
    let d : Diagnostic := ⟨.stackUnderflow, some 0, "VALUE STACK IS EMPTY"⟩
    (s.call p .step).1 = .error d ∧ d.kind.isRole = false ∧ (s.call q .step).1 = .ok .input ∧
      ∃ d, (State.answer q [.text "a"] (s.call q .step)).1.1 = .error d := by
  intro p q s d
  have hp : Reachable p s := .boot (.ofSeed 0) (Tape.ofList [])
  have hq : Reachable q s := .boot (.ofSeed 0) (Tape.ofList [])
  have hd : (s.call p .step).1 = .error d := by decide +kernel
  refine ⟨hd, (isWellFormed_decides_roles hp).1 (by decide +kernel) .step d hd,
    by decide +kernel, ?_⟩
  exact ((isWellFormed_decides_roles hq).2 (by decide +kernel)).2 .step [.text "a"]
    (by decide +kernel) (by decide +kernel)

end LineAsm
