import LineAsm.Number.Magnitude

set_option autoImplicit false

/-!
# Double precision numbers

A number is a signed magnitude, a signed infinity, or the one value that is not a number. Zero has
two signs. Equality of this type tells the two zeros apart; `compare?` does not.
-/

namespace LineAsm

inductive Number where
  | nan
  | infinite (negative : Bool)
  | finite (negative : Bool) (magnitude : Magnitude)
deriving DecidableEq

namespace Number

/-- The number nearest to `num / den` units; what rounds past the largest double is infinite. -/
def ofUnits (negative : Bool) (num den : Nat) : Number :=
  let units := nearest num den
  if h : units < unitLimit then
    .finite negative ⟨units, h, spacing_dvd_nearest num den⟩
  else
    .infinite negative

theorem ofUnits_units (negative : Bool) (m : Magnitude) :
    ofUnits negative m.units 1 = .finite negative m := by
  have h : nearest m.units 1 < unitLimit := m.nearest_units.symm ▸ m.bounded
  simp only [ofUnits, h, dif_pos]
  congr 1
  exact Magnitude.ext_units m.nearest_units

def ofFraction (negative : Bool) (num den : Nat) : Number :=
  ofUnits negative (num * Magnitude.one) den

def ofNat (n : Nat) : Number := ofFraction false n 1

def zero : Number := .finite false .zero

def one : Number := ofNat 1

instance : Inhabited Number := ⟨zero⟩

def isFinite : Number → Bool
  | .finite _ _ => true
  | _ => false

def isNaN : Number → Bool
  | .nan => true
  | _ => false

def signed (negative : Bool) (n : Nat) : Int := if negative then -(n : Int) else n

/-- The number nearest to a whole number of units; an exact zero takes the given sign. -/
def ofSignedUnits (units : Int) (zeroNegative : Bool) : Number :=
  if units = 0 then .finite zeroNegative .zero else ofUnits (units < 0) units.natAbs 1

/-- The integer before the point; numbers that are not finite have none and give zero. -/
def toInt : Number → Int
  | .finite s m => signed s m.whole
  | _ => 0

/-- The order of two numbers. The zeros are equal, and nothing compares with `nan`. -/
def compare? : Number → Number → Option Ordering
  | .nan, _ => none
  | _, .nan => none
  | .infinite s, .infinite t => some (compare t s)
  | .infinite s, .finite _ _ => some (if s then .lt else .gt)
  | .finite _ _, .infinite t => some (if t then .gt else .lt)
  | .finite s a, .finite t b => some (compare (signed s a.units) (signed t b.units))

def lt (a b : Number) : Bool := a.compare? b == some .lt

end Number

end LineAsm
