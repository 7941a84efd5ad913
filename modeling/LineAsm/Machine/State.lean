import LineAsm.Device
import LineAsm.Generator
import LineAsm.Memory
import LineAsm.Program

set_option autoImplicit false

/-!
# States of the machine

A state holds all that an instruction can change. While an instruction waits for input, the log
holds the operand values it has read, so that it can be taken up again without reading them twice.
-/

namespace LineAsm

inductive Status where
  | ready
  | waiting
deriving DecidableEq, Inhabited

structure State (δ : Type) where
  pc : Nat
  status : Status
  log : List Value
  /-- The lines of the calls underway. -/
  calls : Stack Nat
  registers : Registers
  memory : Memory
  generator : Generator
  device : δ
deriving DecidableEq

namespace State

variable {δ : Type}

/-- The state of a machine that has just been loaded, with a generator of any origin. -/
def boot (generator : Generator) (device : δ) : State δ :=
  { pc := 0
    status := .ready
    log := []
    calls := .empty "CALL STACK"
    registers := .initial
    memory := .initial
    generator := generator
    device := device }

def initial (seed : UInt64) (device : δ) : State δ := boot (.ofSeed seed) device

def reseed (s : State δ) (seed : UInt64) : State δ := { s with generator := .ofSeed seed }

def record (s : State δ) (v : Value) : State δ := { s with log := s.log ++ [v] }

/-- Forgets the operands of an instruction that is over. -/
def settle (s : State δ) : State δ := { s with log := [] }

end State

namespace Program

def nextIndex (p : Program) (index : Nat) : Nat := (index + 1) % p.size

/-- Passes over lines that do nothing, at most the given number of them. -/
def passInert (p : Program) : Nat → Nat → Nat
  | 0, index => index
  | n + 1, index =>
    if (p.line index).isInert then p.passInert n (p.nextIndex index) else index

/-- The line to execute after a line: the next one that does something, within one lap. -/
def following (p : Program) (index : Nat) : Nat := p.passInert p.size (p.nextIndex index)

theorem nextIndex_lt {p : Program} (h : 0 < p.size) (index : Nat) : p.nextIndex index < p.size :=
  Nat.mod_lt _ h

theorem passInert_lt {p : Program} (h : 0 < p.size) (n : Nat) {index : Nat}
    (hi : index < p.size) : p.passInert n index < p.size := by
  induction n generalizing index with
  | zero => exact hi
  | succ n ih =>
    unfold passInert
    split
    · exact ih (nextIndex_lt h index)
    · exact hi

theorem following_lt {p : Program} (h : 0 < p.size) (index : Nat) : p.following index < p.size :=
  passInert_lt h _ (nextIndex_lt h index)

/-- The line a position falls on, counting round the program in both directions. -/
def wrap (p : Program) (position : Int) : Nat := (position % (p.size : Int)).toNat

theorem wrap_lt {p : Program} (h : 0 < p.size) (position : Int) : p.wrap position < p.size := by
  unfold wrap
  have hn := Int.emod_nonneg position (b := p.size) (by omega)
  have hl := Int.emod_lt_of_pos position (b := p.size) (by omega)
  omega

end Program

end LineAsm
