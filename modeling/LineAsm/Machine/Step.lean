import LineAsm.Machine.Operand
import LineAsm.Machine.Plan

set_option autoImplicit false

/-!
# Steps

A step executes the line at the program counter. It completes, fails, or suspends because the
device has no value yet; a suspended instruction goes on when a value is entered. Operand values
already read are taken from the log, so each operand is read once however often the instruction
suspends.
-/

namespace LineAsm

inductive Event where
  | stepped
  | input
  /-- The machine was waiting already, and nothing happened. -/
  | waiting
deriving DecidableEq, Inhabited

variable {δ : Type} [Device δ]

/-- Executes a plan. The first operands take their values from `replay`, the others are read. -/
def Plan.run (p : Program) (replay : List Value) (s : State δ) : Plan → Ending δ
  | .done e => e.perform p s
  | .fail f => .failed f s
  | .read operand next =>
    match replay with
    | v :: vs => (next v).run p vs s
    | [] =>
      match s.read operand with
      | .value v s => (next v).run p [] (s.record v)
      | .suspended s => .suspended s
      | .failed f s => .failed f s

theorem Plan.run_done (p : Program) (e : Effect) (replay : List Value) (s : State δ) :
    (done e).run p replay s =
      match e.fault? s with
      | none => .completed (e.apply p s)
      | some f => .failed f s :=
  e.perform_eq p s

namespace State

def dispatch (p : Program) (s : State δ) : Except Diagnostic Event × State δ :=
  let pc := s.pc
  match ((p.line pc).plan p.labels).run p s.log s with
  | .completed s => (.ok .stepped, { s.settle with pc := p.following s.pc })
  | .suspended s => (.ok .input, s)
  | .failed f s => (.error (f.inLine pc), s.settle)

/-- Executes one instruction, unless the machine waits for input. -/
def step (p : Program) (s : State δ) : Except Diagnostic Event × State δ :=
  match s.status with
  | .waiting => (.ok .waiting, s)
  | .ready => s.dispatch p

/-- Supplies the value that the suspended instruction waits for. -/
def enter (p : Program) (v : Value) (s : State δ) : Except Diagnostic Event × State δ :=
  match s.status with
  | .ready => (.error (Fault.noPendingInput.inLine s.pc), s)
  | .waiting => ({ s with status := .ready }.record v).dispatch p

end State

end LineAsm
