set_option autoImplicit false

/-!
# Faults and diagnostics

A fault is a cause: what is wrong with a line, an operand or a value. Its class has a number and a
title. A diagnostic is what the user sees: the class, the line if one is known, and a text.
-/

namespace LineAsm

inductive FaultClass where
  | syntaxError
  | unknownInstruction
  | invalidSource
  | invalidDestination
  | notANumber
  | integerExpected
  | stackUnderflow
  | undefinedLabel
  | outOfMemory
  | noPendingInput
deriving DecidableEq, Inhabited

namespace FaultClass

def number : FaultClass → Nat
  | syntaxError => 2
  | unknownInstruction => 3
  | invalidSource => 4
  | invalidDestination => 5
  | notANumber => 6
  | integerExpected => 7
  | stackUnderflow => 8
  | undefinedLabel => 9
  | outOfMemory => 10
  | noPendingInput => 11

def title : FaultClass → String
  | syntaxError => "SYNTAX ERROR"
  | unknownInstruction => "UNKNOWN INSTRUCTION"
  | invalidSource => "INVALID DATA SOURCE"
  | invalidDestination => "INVALID DATA DESTINATION"
  | notANumber => "NOT A NUMBER"
  | integerExpected => "INTEGER EXPECTED"
  | stackUnderflow => "STACK UNDERFLOW"
  | undefinedLabel => "UNDEFINED LABEL"
  | outOfMemory => "OUT OF MEMORY"
  | noPendingInput => "NO PENDING INPUT"

end FaultClass

/-- The causes that stop a program from being read or a line from being executed. -/
inductive Fault where
  /-- No token starts the rest of the line. -/
  | unexpectedToken (rest : String)
  | tooManyOperands
  /-- The line starts with something other than an instruction. -/
  | unknownInstruction (shown : String)
  | missingSource
  | invalidSource (shown : String)
  | missingDestination
  | invalidDestination (shown : String)
  /-- A value that is no finite number, as it is quoted or spelled. -/
  | notANumber (shown : String)
  | integerExpected (shown : String)
  | emptyStack (name : String)
  | fullStack (name : String)
  | addressOutOfRange (address : Nat)
  | undefinedLabel (name : String)
  | noPendingInput
deriving DecidableEq, Inhabited

namespace Fault

def toClass : Fault → FaultClass
  | unexpectedToken _ => .syntaxError
  | tooManyOperands => .syntaxError
  | unknownInstruction _ => .unknownInstruction
  | missingSource => .invalidSource
  | invalidSource _ => .invalidSource
  | missingDestination => .invalidDestination
  | invalidDestination _ => .invalidDestination
  | notANumber _ => .notANumber
  | integerExpected _ => .integerExpected
  | emptyStack _ => .stackUnderflow
  | fullStack _ => .outOfMemory
  | addressOutOfRange _ => .outOfMemory
  | undefinedLabel _ => .undefinedLabel
  | noPendingInput => .noPendingInput

def text : Fault → String
  | unexpectedToken rest => "UNEXPECTED TOKEN " ++ rest
  | tooManyOperands => "TOO MANY OPERANDS"
  | unknownInstruction shown => shown
  | missingSource => "MISSING OPERAND"
  | invalidSource shown => shown
  | missingDestination => "MISSING OPERAND"
  | invalidDestination shown => shown
  | notANumber shown => shown
  | integerExpected shown => shown ++ " IS NOT AN INTEGER"
  | emptyStack name => name ++ " IS EMPTY"
  | fullStack name => name ++ " OVERFLOW"
  | addressOutOfRange address => "ADDRESS " ++ toString address ++ " OUT OF RANGE"
  | undefinedLabel name => name
  | noPendingInput => ""

end Fault

structure Diagnostic where
  kind : FaultClass
  line : Option Nat := none
  text : String := ""
deriving DecidableEq, Inhabited

namespace Diagnostic

/-- Places a diagnostic on a line, unless it has a place already. -/
def inLine (d : Diagnostic) (line : Nat) : Diagnostic :=
  match d.line with
  | none => { d with line := some line }
  | some _ => d

def message (d : Diagnostic) : String :=
  let place := match d.line with
    | none => ""
    | some line => " IN " ++ toString line
  let detail := if d.text.isEmpty then "" else "; " ++ d.text
  d.kind.title ++ place ++ detail

def braced (d : Diagnostic) : String := "Error \x7b " ++ d.message ++ " \x7d"

end Diagnostic

def Fault.inLine (f : Fault) (line : Nat) : Diagnostic := ⟨f.toClass, some line, f.text⟩

def Fault.placeless (f : Fault) : Diagnostic := ⟨f.toClass, none, f.text⟩

end LineAsm
