import LineAsm.Number.Shortest

set_option autoImplicit false

/-!
# Writing numbers

A number is displayed by its shortest decimal with all places written out, and both zeros as `0`.
The precise form, used where a message reports a value, keeps the sign of zero, marks every number
as fractional, and uses an exponent for very large and very small numbers.
-/

namespace LineAsm.Number

def minus (negative : Bool) (cs : List Char) : List Char := if negative then '-' :: cs else cs

def display : Number → String
  | .nan => "NaN"
  | .infinite s => if s then "-Infinity" else "Infinity"
  | .finite s m =>
    if m.units = 0 then "0" else .ofList (minus s m.shortest.positional)

/-- From `10 ^ 16` on, and below `10 ^ -4`, the precise form has an exponent. -/
def usesExponent (d : Decimal) : Bool := 16 ≤ d.order || d.order < -4

def precise : Number → String
  | .nan => "NaN"
  | .infinite s => if s then "-inf" else "inf"
  | .finite s m =>
    if m.units = 0 then .ofList (minus s "0.0".toList)
    else
      let d := m.shortest
      if usesExponent d then .ofList (minus s d.scientific)
      else if d.exponent < 0 then .ofList (minus s d.positional)
      else .ofList (minus s (d.positional ++ ".0".toList))

end LineAsm.Number
