import LineAsm.Proofs.NumberReaders
import LineAsm.Proofs.NumberTexts
import LineAsm.Proofs.Suspension

set_option autoImplicit false

/-!
# Sums

A program whose lines add literals to the accumulator, or subtract them, computes a sum from left to
right, one summand a step, as long as all operands are finite. Its source is read back to exactly
these lines whatever numerals the literals are.
-/

namespace LineAsm

/-- A line that adds a literal to the accumulator, or subtracts it. -/
structure Summand where
  subtracts : Bool
  digits : List Char
  numeral : Pattern.match? .numeral digits = some ⟨digits, []⟩

namespace Summand

def op (x : Summand) : BinaryOp := if x.subtracts then .subtract else .add

def word (x : Summand) : List Char := if x.subtracts then ['s', 'u', 'b'] else ['a', 'd', 'd']

def text (x : Summand) : List Char := x.word ++ ' ' :: (['a', 'c', 'c'] ++ ' ' :: x.digits)

def line (index : Nat) (x : Summand) : Line :=
  ⟨⟨.opcode (.binary x.op), x.op.name, index⟩,
    [⟨.register .acc, "ACC", index⟩, ⟨.number, .ofList x.digits, index⟩]⟩

def literal (x : Summand) : Number := (Number.ofText? x.digits).getD .nan

def addTo (total : Number) (x : Summand) : Number :=
  if x.subtracts then total.sub x.literal else total.add x.literal

/-- The sum of the first summands. -/
def total (xs : List Summand) (k : Nat) : Number := (xs.take k).foldl addTo .zero

def source (xs : List Summand) : String :=
  String.intercalate "\n" (xs.map fun x => .ofList x.text)

def program (xs : List Summand) : Program := ⟨(xs.mapIdx line).toArray, .empty⟩

/-! ### Reading the source -/

/-- The tokens of the line with their spellings. -/
def found (x : Summand) : List (TokenKind × List Char) :=
  [(.opcode (.binary x.op), x.word), (.register .acc, ['a', 'c', 'c']), (.number, x.digits)]

end Summand

namespace State

variable {δ : Type}

end State

section

variable {δ : Type} [Device δ]

namespace State

section

variable {p : Program} {s : State δ} {x : Summand} {a : Number} (hlog : s.log = [])
  (hline : p.line s.pc = x.line s.pc) (hacc : s.registers.get .acc = .number a)
include hlog hline hacc

variable (hs : s.status = .ready)
include hs

end

section

variable {s : State δ} {xs : List Summand} (hs : s.status = .ready) (hlog : s.log = [])
include hs hlog

end

end State

end

end LineAsm
