import LineAsm.Number.Basic

set_option autoImplicit false

/-!
# Arithmetic on double precision numbers

Each operation is computed exactly on magnitudes and rounded once. Dividing by zero gives an
infinity, and an operation without a meaningful answer gives `nan`. Powers and logarithms are the
exception: they come from the platform's mathematics library, which the operation reaches through
the 64 bit encoding of a number.
-/

namespace LineAsm.Number

def neg : Number → Number
  | .nan => .nan
  | .infinite s => .infinite !s
  | .finite s m => .finite (!s) m

/-- A sum that is exactly zero is negative only if both summands are. -/
def add : Number → Number → Number
  | .nan, _ => .nan
  | _, .nan => .nan
  | .infinite s, .infinite t => if s = t then .infinite s else .nan
  | .infinite s, .finite _ _ => .infinite s
  | .finite _ _, .infinite t => .infinite t
  | .finite s a, .finite t b => ofSignedUnits (signed s a.units + signed t b.units) (s && t)

def sub (a b : Number) : Number := a.add b.neg

def mul : Number → Number → Number
  | .nan, _ => .nan
  | _, .nan => .nan
  | .infinite s, .infinite t => .infinite (s ^^ t)
  | .infinite s, .finite t b => if b.units = 0 then .nan else .infinite (s ^^ t)
  | .finite s a, .infinite t => if a.units = 0 then .nan else .infinite (s ^^ t)
  | .finite s a, .finite t b => ofUnits (s ^^ t) (a.units * b.units) Magnitude.one

def div : Number → Number → Number
  | .nan, _ => .nan
  | _, .nan => .nan
  | .infinite _, .infinite _ => .nan
  | .infinite s, .finite t _ => .infinite (s ^^ t)
  | .finite s _, .infinite t => .finite (s ^^ t) .zero
  | .finite s a, .finite t b =>
    if b.units = 0 then
      if a.units = 0 then .nan else .infinite (s ^^ t)
    else
      ofUnits (s ^^ t) (a.units * Magnitude.one) b.units

/-- The remainder of a division that rounds toward zero; it has the sign of the dividend. -/
def rem : Number → Number → Number
  | .nan, _ => .nan
  | _, .nan => .nan
  | .infinite _, _ => .nan
  | .finite s a, .infinite _ => .finite s a
  | .finite s a, .finite _ b => if b.units = 0 then .nan else ofUnits s (a.units % b.units) 1

/-- The smaller number; the other one if one is `nan`, and the right one of two equals, so that
the order of the arguments decides between the zeros. -/
def min (a b : Number) : Number :=
  if b.isNaN then a else if a.lt b then a else b

/-- The larger number; the other one if one is `nan`, and the right one of two equals. -/
def max (a b : Number) : Number :=
  if b.isNaN then a else if b.lt a then a else b

/-- Keeps the sign and makes the magnitude whole, up or down. -/
def toWhole (up : Bool) : Number → Number
  | .finite s m => ofFraction s (if up && !m.isWhole then m.whole + 1 else m.whole) 1
  | a => a

def floor : Number → Number
  | .finite s m => toWhole s (.finite s m)
  | a => a

def ceil : Number → Number
  | .finite s m => toWhole (!s) (.finite s m)
  | a => a

/-- Drops what stands after the point. -/
def trunc (a : Number) : Number := toWhole false a

/-- The 64 bit encoding: sign, eleven bits of exponent, 52 bits of fraction. -/
def toBits : Number → UInt64
  | .nan => 0x7ff8000000000000
  | .infinite s => .ofNat (signBit s + 2047 * twoPow 52)
  | .finite s m =>
    .ofNat (signBit s + (m.units.log2 - 52) * twoPow 52 + m.units / spacing m.units)
where
  signBit (s : Bool) : Nat := if s then twoPow 63 else 0

def ofBits (bits : UInt64) : Number :=
  let n := bits.toNat
  let negative := twoPow 63 ≤ n
  let exponent := n / twoPow 52 % 2048
  let fraction := n % twoPow 52
  if exponent = 2047 then
    if fraction = 0 then .infinite negative else .nan
  else if exponent = 0 then
    ofUnits negative fraction 1
  else
    ofUnits negative ((twoPow 52 + fraction) * twoPow (exponent - 1)) 1

def toFloat (a : Number) : Float := Float.ofBits a.toBits

def ofFloat (x : Float) : Number := ofBits x.toBits

def pow (a b : Number) : Number := ofFloat (Float.pow a.toFloat b.toFloat)

def log (a : Number) : Number := ofFloat (Float.log a.toFloat)

end LineAsm.Number
