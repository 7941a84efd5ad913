import LineAsm.Machine.Journal

set_option autoImplicit false

/-!
# Runs

A run makes steps until a given number of them completed or one did not complete.
-/

namespace LineAsm

structure Run (δ : Type) where
  state : State δ
  event : Except Diagnostic Event
  steps : Nat
  /-- The program counter before each step made. -/
  visited : Array Nat
  messages : Array Message

namespace Run

variable {δ : Type}

def start (s : State δ) : Run δ := ⟨s, .ok .stepped, 0, #[], #[]⟩

variable [Device δ]

def extend (p : Program) : Nat → Run δ → Run δ
  | 0, r => r
  | n + 1, ⟨state, _, steps, visited, messages⟩ =>
    let pc := state.pc
    let status := state.status
    let (event, state) := state.step p
    let visited := visited.push pc
    let messages := messages ++ Message.ofStep p status pc event
    match event with
    | .ok .stepped => extend p n ⟨state, event, steps + 1, visited, messages⟩
    | _ => ⟨state, event, steps, visited, messages⟩

def ofSteps (p : Program) (n : Nat) (s : State δ) : Run δ := extend p n (start s)

end Run

end LineAsm
