import LineAsm.Number.Arithmetic
import LineAsm.Value

set_option autoImplicit false

/-!
# Operations on values

The arithmetic of the instruction set, its comparisons, and the two operations on texts.
-/

namespace LineAsm

inductive BinaryOp where
  | add | subtract | multiply | divide | modulus | power | min | max
deriving DecidableEq, Inhabited

inductive UnaryOp where
  | log | floor | ceil
deriving DecidableEq, Inhabited

inductive Comparison where
  | equal | unequal | greater | greaterOrEqual | less | lessOrEqual
deriving DecidableEq, Inhabited

def BinaryOp.eval : BinaryOp → Number → Number → Number
  | .add => .add
  | .subtract => .sub
  | .multiply => .mul
  | .divide => .div
  | .modulus => .rem
  | .power => .pow
  | .min => .min
  | .max => .max

def UnaryOp.eval : UnaryOp → Number → Number
  | .log => .log
  | .floor => .floor
  | .ceil => .ceil

namespace Comparison

def holdsOf : Comparison → Ordering → Bool
  | .equal, o => o == .eq
  | .unequal, o => o != .eq
  | .greater, o => o == .gt
  | .greaterOrEqual, o => o != .lt
  | .less, o => o == .lt
  | .lessOrEqual, o => o != .gt

/-- Numbers that do not compare are unequal and nothing else. -/
def numbers (c : Comparison) (a b : Number) : Bool :=
  match a.compare? b with
  | some o => c.holdsOf o
  | none => c == .unequal

/-- Texts are ordered character by character. -/
def texts (c : Comparison) (a b : String) : Bool :=
  c.holdsOf (if a < b then .lt else if a = b then .eq else .gt)

end Comparison

namespace Text

def length (s : String) : Number := .ofNat s.length

/-- The position an index denotes in a text of `length` characters, computed in double precision.
Indexes are cut at the point, negative ones count from the end, and what lies outside the text
becomes its nearer end. -/
def position (length : Nat) (index : Number) : Nat :=
  let size := Number.ofNat length
  let whole := index.trunc
  if whole.lt .zero then ((size.add whole).max .zero).toInt.toNat
  else (whole.min size).toInt.toNat

def slice (s : String) (start stop : Number) : String :=
  let cs := s.toList
  let start := position cs.length start
  let stop := position cs.length stop
  .ofList ((cs.drop start).take (stop - start))

end Text

end LineAsm
