import LineAsm.Value

set_option autoImplicit false

/-!
# Devices

A device is what a machine reads from and writes to. It may have no value yet when it is asked for
one; the instruction that asked then waits.
-/

namespace LineAsm

class Device (δ : Type) where
  /-- The next value, if there is one, and the device after the request. -/
  request : δ → Option Value × δ
  /-- The device after a value was written to it. -/
  emit : Value → δ → δ

/-- Hands out values that are known beforehand, and keeps what is written. -/
structure Tape where
  pending : List Value
  printed : Array Value
deriving DecidableEq, Inhabited

namespace Tape

def ofList (pending : List Value) : Tape := ⟨pending, #[]⟩

def append (t : Tape) (v : Value) : Tape := { t with pending := t.pending ++ [v] }

def tear (t : Tape) : Tape := { t with printed := #[] }

instance : Device Tape where
  request t :=
    match t.pending with
    | [] => (none, t)
    | v :: vs => (some v, { t with pending := vs })
  emit v t := { t with printed := t.printed.push v }

end Tape

/-- Never has a value, and drops what is written. -/
structure Detached where
deriving DecidableEq, Inhabited

instance : Device Detached where
  request d := (none, d)
  emit _ d := d

end LineAsm
