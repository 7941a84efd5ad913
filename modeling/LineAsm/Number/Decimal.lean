import LineAsm.Number.Basic

set_option autoImplicit false

/-!
# Decimals

A decimal is a whole number of powers of ten. It is what a written number denotes before it is
rounded to a double, and what a double is written from.
-/

namespace LineAsm

/-- The rational `digits * 10 ^ exponent`. -/
structure Decimal where
  digits : Nat
  exponent : Int
deriving DecidableEq, Inhabited

namespace Decimal

/-- The number nearest to the decimal, with the given sign.

From `10 ^ 342 > 2 ^ 1025` on, every decimal but zero is infinite, and a decimal below `2 ^ -1075`
is zero; both are decided from the size alone, so that no huge power is computed. -/
def toNumber (negative : Bool) (d : Decimal) : Number :=
  if d.digits = 0 then
    .finite negative .zero
  else
    match d.exponent with
    | .ofNat e =>
      if 342 ≤ e then .infinite negative else .ofFraction negative (d.digits * tenPow e) 1
    | .negSucc k =>
      if d.digits.log2 + 1076 ≤ 3 * (k + 1) then .finite negative .zero
      else .ofFraction negative d.digits (tenPow (k + 1))

def dropZero (d : Decimal) : Decimal :=
  if d.digits % 10 = 0 then ⟨d.digits / 10, d.exponent + 1⟩ else d

def figures (n : Nat) : List Char := Nat.toDigits 10 n

/-- How many digits `n` has in base ten. The binary length gives the count up to one. -/
def width (n : Nat) : Nat :=
  let estimate := n.log2 * 30103 / 100000
  if tenPow (estimate + 1) ≤ n then estimate + 2
  else if tenPow estimate ≤ n then estimate + 1
  else estimate

/-- All places written out: no exponent, and a point only if something follows it. -/
def positional (d : Decimal) : List Char :=
  match d.exponent with
  | .ofNat e => figures (d.digits * tenPow e)
  | .negSucc k =>
    let ds := figures d.digits
    let padded := List.replicate (k + 2 - ds.length) '0' ++ ds
    padded.take (padded.length - (k + 1)) ++ '.' :: padded.drop (padded.length - (k + 1))

/-- The place of the first digit: zero for units, one for tens, minus one for tenths. -/
def order (d : Decimal) : Int := d.exponent + (figures d.digits).length - 1

def scientific (d : Decimal) : List Char :=
  let mantissa :=
    match figures d.digits with
    | [] => []
    | [c] => [c]
    | c :: cs => c :: '.' :: cs
  let power := figures d.order.natAbs
  mantissa ++ 'e' :: (if d.order < 0 then '-' :: power else power)

end Decimal

end LineAsm
