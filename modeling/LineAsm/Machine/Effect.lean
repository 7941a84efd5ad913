import LineAsm.Machine.State

set_option autoImplicit false

/-!
# Effects

What an instruction does once its operands are read. An effect either fails, and then changes
nothing, or takes place as a whole: `fault?` decides which, and `apply` is the change. To perform it
is to go through the checked operations of the stacks and the memory, and comes to the same.
-/

namespace LineAsm

inductive Effect where
  | nothing
  | setRegister (r : Register) (v : Value)
  /-- Cuts the text of the accumulator. -/
  | slice (start stop : Number)
  /-- Passes over the next line if the test failed. -/
  | skipUnless (test : Bool)
  /-- Makes the line after the position the next one. -/
  | jump (position : Int)
  | jumpBy (offset : Number)
  | call (position : Int)
  | return
  | output (v : Value)
  | setAddress (address : Nat)
  | store (v : Value)
  | push (v : Value)
deriving DecidableEq, Inhabited

inductive Ending (δ : Type) where
  | completed (s : State δ)
  | suspended (s : State δ)
  | failed (f : Fault) (s : State δ)

namespace Effect

variable {δ : Type}

/-- Why the effect cannot take place. -/
def fault? (e : Effect) (s : State δ) : Option Fault :=
  match e with
  | .call _ => if s.calls.isFull then some (.fullStack s.calls.name) else none
  | .return => if s.calls.isEmpty then some (.emptyStack s.calls.name) else none
  | .store _ =>
    if s.memory.inRange then none else some (.addressOutOfRange s.memory.address)
  | .push _ =>
    if s.memory.stack.isFull then some (.fullStack s.memory.stack.name) else none
  | _ => none

/-- The position a relative jump from line `pc` sets, computed in double precision. -/
def relative (pc : Nat) (offset : Number) : Int :=
  (((Number.ofNat pc).add offset.floor).sub .one).toInt

def apply [Device δ] (e : Effect) (p : Program) (s : State δ) : State δ :=
  match e with
  | .nothing => s
  | .setRegister r v => { s with registers := s.registers.set r v }
  | .slice start stop =>
    let v := Value.text (Text.slice s.registers.acc.display start stop)
    { s with registers := s.registers.set .acc v }
  | .skipUnless test => if test then s else { s with pc := p.nextIndex s.pc }
  | .jump position => { s with pc := p.wrap position }
  | .jumpBy offset => { s with pc := p.wrap (relative s.pc offset) }
  | .call position => { s with calls := s.calls.add s.pc, pc := p.wrap position }
  | .return => { s with pc := s.calls.top?.getD s.pc, calls := s.calls.drop }
  | .output v => { s with device := Device.emit v s.device }
  | .setAddress address => { s with memory := s.memory.setAddress address }
  | .store v => { s with memory := s.memory.put v }
  | .push v => { s with memory := s.memory.mapStack (·.add v) }

/-- Carries out the effect, or fails with the reason why it cannot take place. -/
def perform [Device δ] (e : Effect) (p : Program) (s : State δ) : Ending δ :=
  match e with
  | .call position =>
    match s.calls.push s.pc with
    | .ok calls => .completed { s with calls, pc := p.wrap position }
    | .error f => .failed f s
  | .return =>
    match s.calls.pop with
    | .ok (pc, calls) => .completed { s with pc, calls }
    | .error f => .failed f s
  | .store v =>
    match s.memory.store v with
    | .ok memory => .completed { s with memory }
    | .error f => .failed f s
  | .push v =>
    match s.memory.stack.push v with
    | .ok stack => .completed { s with memory.stack := stack }
    | .error f => .failed f s
  | e => .completed (e.apply p s)

theorem perform_eq [Device δ] (e : Effect) (p : Program) (s : State δ) :
    e.perform p s =
      match e.fault? s with
      | none => .completed (e.apply p s)
      | some f => .failed f s := by
  cases e with
  | call position =>
    simp only [perform, fault?, Stack.push]
    cases s.calls.isFull <;> rfl
  | «return» =>
    cases htop : s.calls.top? with
    | none =>
      rw [perform, fault?, Stack.pop_of_top?_eq_none htop,
        (Stack.top?_eq_none_iff s.calls).1 htop]
      rfl
    | some i =>
      rw [perform, fault?, Stack.pop_of_top?_eq_some htop, Stack.isEmpty_of_top?_eq_some htop,
        apply, htop]
      rfl
  | store v =>
    simp only [perform, fault?, Memory.store]
    cases s.memory.inRange <;> rfl
  | push v =>
    simp only [perform, fault?, Stack.push]
    cases s.memory.stack.isFull <;> rfl
  | _ => rfl

theorem apply_jumpBy [Device δ] (offset : Number) (p : Program) (s : State δ) :
    (jumpBy offset).apply p s = (jump (relative s.pc offset)).apply p s := rfl

/-- What holds whatever registers, lines, cells and entries an effect sets, holds after the effect.
Proofs go through here so that the arithmetic of jumps is not unfolded. -/
theorem apply_ind [Device δ] {motive : State δ → Prop} (e : Effect) (p : Program) (s : State δ)
    (registers : ∀ rs, motive { s with registers := rs })
    (control : ∀ pc calls, motive { s with pc := pc, calls := calls })
    (output : ∀ v, motive { s with device := Device.emit v s.device })
    (cells : ∀ cells address, motive { s with memory := ⟨cells, address, s.memory.stack⟩ })
    (push : ∀ v, motive { s with memory := s.memory.mapStack (·.add v) }) :
    motive (e.apply p s) := by
  cases e with
  | nothing => exact registers s.registers
  | setRegister r v => exact registers _
  | slice start stop => exact registers _
  | skipUnless test =>
    cases test with
    | true => exact registers s.registers
    | false => exact control _ s.calls
  | jump position => exact control _ s.calls
  | jumpBy offset =>
    rw [apply_jumpBy]
    exact control _ s.calls
  | call position => exact control _ _
  | «return» => exact control _ _
  | output v => exact output v
  | setAddress address => exact cells _ _
  | store v => exact cells _ _
  | push v => exact push v

end Effect

end LineAsm
