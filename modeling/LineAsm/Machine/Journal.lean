import LineAsm.Machine.Step

set_option autoImplicit false

/-!
# The journal

The messages that loading and running a program give rise to. They follow from what happened, so
the machine itself keeps no journal.
-/

namespace LineAsm

inductive Level where
  | trace
  | debug
  | warn
deriving DecidableEq, Inhabited

def Level.name : Level → String
  | .trace => "TRACE"
  | .debug => "DEBUG"
  | .warn => "WARN"

inductive Message where
  | labelDefined (name : String) (line : Nat)
  | labelRedefined (name : String) (previous line : Nat)
  | loaded (lines labels : Nat)
  | executing (index : Nat) (line : Line)
  | waiting (index : Nat)
  | resumed (index : Nat) (v : Value)
deriving DecidableEq, Inhabited

namespace Message

def level : Message → Level
  | .labelDefined _ _ => .debug
  | .labelRedefined _ _ _ => .warn
  | .loaded _ _ => .debug
  | .executing _ _ => .trace
  | .waiting _ => .debug
  | .resumed _ _ => .debug

def text : Message → String
  | .labelDefined name line => "label " ++ name ++ " on line " ++ toString line
  | .labelRedefined name previous line =>
    "label " ++ name ++ " on line " ++ toString previous ++ " redefined on line " ++ toString line
  | .loaded lines labels =>
    "loaded " ++ toString lines ++ " lines with " ++ toString labels ++ " labels"
  | .executing index line => Program.numbered index line
  | .waiting index => "line " ++ toString index ++ " waiting for input"
  | .resumed index v => "line " ++ toString index ++ " resumed with " ++ v.precise

def render (m : Message) : String := m.level.name ++ " " ++ m.text

/-- The messages of definitions that are added to known labels. -/
def ofDefinitions (known : Labels) : List (String × Nat) → List Message
  | [] => []
  | (name, line) :: rest =>
    let message := match known.get? name with
      | none => labelDefined name line
      | some previous => labelRedefined name previous line
    message :: ofDefinitions (known.define name line) rest

def ofReading (p : Program) : List Message :=
  ofDefinitions .empty (Labels.definitions p.lines.toList)

def ofLoading (p : Program) : List Message := ofReading p ++ [loaded p.size p.labels.size]

def ofDispatch (p : Program) (pc : Nat) (event : Except Diagnostic Event) : List Message :=
  match event with
  | .ok .input => [executing pc (p.line pc), waiting pc]
  | _ => [executing pc (p.line pc)]

def ofStep (p : Program) (status : Status) (pc : Nat) (event : Except Diagnostic Event) :
    List Message :=
  match status with
  | .waiting => []
  | .ready => ofDispatch p pc event

def ofEnter (p : Program) (status : Status) (pc : Nat) (v : Value)
    (event : Except Diagnostic Event) : List Message :=
  match status with
  | .waiting => resumed pc v :: ofDispatch p pc event
  | .ready => []

end Message

end LineAsm
