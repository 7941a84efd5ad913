import LineAsm.Number.Decimal

set_option autoImplicit false

/-!
# The shortest decimal of a number

A number is written with the fewest significant digits that read back as the same number; of two
such decimals the closer one is taken, and the larger one if both are equally close. The search
looks, for each count of digits, only at the two decimals next to the number, and accepts one by
reading it back.
-/

namespace LineAsm.Magnitude

/-- The magnitude as a whole number of `10 ^ -1074`, which it always is. -/
def tenths (m : Magnitude) : Nat := m.units * Nat.pow 5 1074

def expansion (m : Magnitude) : Decimal := ⟨m.tenths, -1074⟩

def readsBack (m : Magnitude) (d : Decimal) : Bool := d.toNumber false == .finite false m

/-- The closest decimal with `count` digits that reads back, where `tenths` has `width` digits. -/
def atDigits? (m : Magnitude) (tenths width count : Nat) : Option Decimal :=
  let step := tenPow (width - count)
  let exponent : Int := (width - count : Nat) - 1074
  let low : Decimal := ⟨tenths / step, exponent⟩
  -- a carry out of the first digit leaves a zero that is not significant
  let high : Decimal := (Decimal.mk (tenths / step + 1) exponent).dropZero
  match m.readsBack low, m.readsBack high with
  | true, true => some (if 2 * (tenths % step) < step then low else high)
  | true, false => some low
  | false, true => some high
  | false, false => none

/-- The shortest decimal that reads back; seventeen digits always do. -/
def shortest (m : Magnitude) : Decimal :=
  let tenths := m.tenths
  let width := Decimal.width tenths
  ((List.range' 1 17).findSome? (m.atDigits? tenths width)).getD m.expansion

end LineAsm.Magnitude
