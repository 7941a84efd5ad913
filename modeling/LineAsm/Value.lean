import LineAsm.Fault
import LineAsm.Number.Printer
import LineAsm.Number.Reader
import LineAsm.Text.Quoted

set_option autoImplicit false

/-!
# Values

Registers, memory cells and the value stack hold numbers and texts. A numeric operation accepts a
text that starts with a number, and only finite numbers. An address is a whole number, written
either as a number or as a text of digits.
-/

namespace LineAsm

inductive Value where
  | number (n : Number)
  | text (s : String)
deriving DecidableEq

namespace Value

def blank : Value := .number .zero

instance : Inhabited Value := ⟨blank⟩

def display : Value → String
  | .number n => n.display
  | .text s => s

def precise : Value → String
  | .number n => "Number(" ++ n.precise ++ ")"
  | .text s => "Text(" ++ Text.quoted s ++ ")"

/-- The finite number a value stands for. -/
def number? (v : Value) : Option Number :=
  let n? := match v with
    | .number n => some n
    | .text s => Number.ofLeading? s.toList
  n?.filter Number.isFinite

def isNumber (v : Value) : Bool := v.number?.isSome

def toNumber (v : Value) : Except Fault Number :=
  match v.number? with
  | some n => .ok n
  | none => .error (.notANumber (Text.quoted v.display))

/-- The address a value stands for. A whole number past the last address gives the last address. -/
def address? : Value → Option Nat
  | .number (.finite s m) =>
    if m.isWhole && (!s || m.units == 0) then some (min m.whole (wordLimit - 1)) else none
  | .number _ => none
  | .text s => wordOfText? (Text.trim s.toList)

def toAddress (v : Value) : Except Fault Nat :=
  match v.address? with
  | some a => .ok a
  | none => .error (.integerExpected v.display)

/-- The value a typed line stands for: a number if all of it reads as a finite one. -/
def ofTyped (line : String) : Value :=
  match (Number.ofText? (Text.trim line.toList)).filter Number.isFinite with
  | some n => .number n
  | none => .text line

end Value

end LineAsm
