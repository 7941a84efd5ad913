import LineAsm.Machine.Journal

set_option autoImplicit false

/-!
# The console

A session runs a program for a user: it executes instructions until a limit, asks for a line
whenever an instruction waits for input, and ends with an exit code and, after a fault, a report.
-/

namespace LineAsm

structure Farewell where
  exitCode : Nat
  report : Option String
deriving DecidableEq, Inhabited

structure Session where
  program : Program
  /-- The machine. Its tape has no values of its own: they are typed. -/
  state : State Tape
  steps : Nat
  limit : Option Nat

inductive Progress where
  | running (s : Session)
  | asking (s : Session)
  | finished (s : Session) (f : Farewell)

namespace Session

def boot (program : Program) (generator : Generator) (limit : Option Nat) : Session :=
  ⟨program, .boot generator (.ofList []), 0, limit⟩

def start (program : Program) (seed : UInt64) (limit : Option Nat) : Session :=
  boot program (.ofSeed seed) limit

def atLimit (s : Session) : Bool :=
  match s.limit with
  | some limit => limit ≤ s.steps
  | none => false

def after (s : Session) (call : Except Diagnostic Event × State Tape) : Progress :=
  match call with
  | (.ok .input, state) => .asking { s with state }
  | (.ok _, state) => .running { s with state, steps := s.steps + 1 }
  | (.error d, state) => .finished { s with state } ⟨1, some d.message⟩

def next (s : Session) : Progress :=
  if s.atLimit then .finished s ⟨0, none⟩ else s.after (s.state.step s.program)

def answer (s : Session) (line : String) : Progress :=
  s.after (s.state.enter s.program (.ofTyped line))

def close (s : Session) : Progress := .finished s ⟨0, none⟩

def printed (s : Session) : List String := s.state.device.printed.toList.map Value.display

end Session

/-- Goes on with the given typed lines, for at most `n` turns. -/
def Progress.drive : Nat → List String → Progress → Progress
  | 0, _, progress => progress
  | n + 1, lines, .running s => drive n lines s.next
  | n + 1, line :: lines, .asking s => drive n lines (s.answer line)
  | _ + 1, [], .asking s => s.close
  | _ + 1, _, .finished s f => .finished s f

/-- What the contents of a source file give: a program, or the end of the session. -/
def readSource (contents : Option ByteArray) : Except Farewell Program :=
  match contents.bind String.fromUTF8? with
  | none => .error ⟨1, none⟩
  | some source =>
    match Program.load source with
    | .ok program => .ok program
    | .error d => .error ⟨1, some d.message⟩

end LineAsm
