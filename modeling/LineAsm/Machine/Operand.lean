import LineAsm.Machine.State

set_option autoImplicit false

/-!
# Reading operands

A source operand yields a value: a literal, the contents of a register or cell, the address, the
top of the stack, a random number, or a value from the device. Reading may consume the source.
-/

namespace LineAsm

inductive Reading (δ : Type) where
  | value (v : Value) (s : State δ)
  | suspended (s : State δ)
  | failed (f : Fault) (s : State δ)

namespace State

variable {δ : Type}

def readInput [Device δ] (s : State δ) : Reading δ :=
  match Device.request s.device with
  | (some v, device) => .value v { s with device }
  | (none, device) => .suspended { s with device, status := .waiting }

def readRandom (s : State δ) : Reading δ :=
  let v := Value.number s.generator.value
  .value v { s with generator := s.generator.advance }

def readTop (s : State δ) : Reading δ :=
  match s.memory.stack.top with
  | .ok v => .value v s
  | .error f => .failed f s

def readPop (s : State δ) : Reading δ :=
  match s.memory.stack.pop with
  | .ok (v, stack) => .value v { s with memory.stack := stack }
  | .error f => .failed f s

def read [Device δ] (s : State δ) (operand : Option Token) : Reading δ :=
  match operand with
  | none => .failed .missingSource s
  | some t =>
    match t.kind with
    | .input => s.readInput
    | .random => s.readRandom
    | .register r => .value (s.registers.get r) s
    | .pop => s.readPop
    | .top => s.readTop
    | .memory => .value s.memory.fetch s
    | .address => .value (.number (.ofNat s.memory.address)) s
    | .string => .value (.text t.text) s
    | .number =>
      match Number.ofText? t.text.toList with
      | some n => .value (.number n) s
      | none => .failed (.notANumber t.text) s
    | _ => .failed (.invalidSource t.render) s

end State

end LineAsm
