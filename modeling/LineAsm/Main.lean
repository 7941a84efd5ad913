import LineAsm.CommandLine
import LineAsm.Console

set_option autoImplicit false

/-!
# The program

Runs a source file on the console: printed values go to standard output, typed lines come from
standard input, and messages go to standard error.
-/

namespace LineAsm.Command

/-- Prints what the machine has written, and forgets it. -/
def flush (s : Session) : IO Session := do
  for line in s.printed do
    IO.println line
  return { s with state := { s.state with device := s.state.device.tear } }

/-- Shows messages: warnings always, all others when tracing. -/
def tell (trace : Bool) (messages : List Message) : IO Unit :=
  for m in messages do
    if trace || m.level == .warn then
      IO.eprintln m.render

def finish (f : Farewell) : IO UInt32 := do
  if let some report := f.report then
    IO.println report
  return f.exitCode.toUInt32

def eventOf (progress : Progress) : Except Diagnostic Event :=
  match progress with
  | .asking _ => .ok .input
  | _ => .ok .stepped

partial def loop (trace : Bool) (progress : Progress) : IO UInt32 := do
  match progress with
  | .running s =>
    let s ← flush s
    let next := s.next
    unless s.atLimit do
      tell trace (Message.ofStep s.program s.state.status s.state.pc (eventOf next))
    loop trace next
  | .asking s =>
    let s ← flush s
    IO.print "IN> "
    (← IO.getStdout).flush
    let line ← (← IO.getStdin).getLine
    if line.isEmpty then
      loop trace s.close
    else
      let typed := String.ofList (Program.dropReturn (line.toList.takeWhile (· != '\n')))
      let next := s.answer typed
      tell trace
        (Message.ofEnter s.program s.state.status s.state.pc (.ofTyped typed) (eventOf next))
      loop trace next
  | .finished s f =>
    let _ ← flush s
    finish f

def contents? (file : String) : IO (Option ByteArray) :=
  try
    return some (← IO.FS.readBinFile file)
  catch e =>
    IO.eprintln (toString e)
    return none

/-- A generator with a key from the entropy of the system. -/
def freshGenerator : IO Generator := do
  let bytes ← IO.getRandomBytes 32
  let word (i : Nat) : UInt32 :=
    ((bytes.toList.drop (4 * i)).take 4).foldr (fun b w => w * 256 + b.toUInt32) 0
  return .ofKey (.ofWords word)

def run (options : Options) : IO UInt32 := do
  match readSource (← contents? options.file) with
  | .error f => finish f
  | .ok program =>
    tell options.trace (Message.ofLoading program)
    let generator ← match options.seed with
      | some seed => pure (.ofSeed seed)
      | none => freshGenerator
    loop options.trace (.running (.boot program generator options.steps))

end LineAsm.Command

def main (arguments : List String) : IO UInt32 := do
  match LineAsm.Options.parse arguments with
  | .ok options => LineAsm.Command.run options
  | .error usage =>
    if usage.exitCode == 0 then IO.println usage.message else IO.eprintln usage.message
    return usage.exitCode
