import LineAsm.Number.Reader

set_option autoImplicit false

/-!
# The command line

A run is asked for by the name of a source file and, in any order, a limit on the number of
instructions, a seed for the random numbers, and a switch for tracing.
-/

namespace LineAsm

structure Options where
  file : String
  steps : Option Nat
  seed : Option UInt64
  trace : Bool
deriving DecidableEq, Inhabited

inductive Usage where
  | help
  | version
  | missingFile
  | missingValue (option : String)
  | invalidValue (option value : String)
  | repeated (option : String)
  | unexpected (argument : String)
deriving DecidableEq, Inhabited

namespace Usage

/-- Asking for help is no mistake. -/
def exitCode : Usage → UInt32
  | .help => 0
  | .version => 0
  | _ => 2

def synopsis : String := "usage: FILE [--steps N] [--seed N] [--trace]"

def message : Usage → String
  | .help => synopsis
  | .version => "1.0.0"
  | .missingFile => "a source file is required\n" ++ synopsis
  | .missingValue option => "a value is required for " ++ option ++ "\n" ++ synopsis
  | .invalidValue option value =>
    "invalid value '" ++ value ++ "' for " ++ option ++ "\n" ++ synopsis
  | .repeated option => option ++ " cannot be used more than once\n" ++ synopsis
  | .unexpected argument => "unexpected argument '" ++ argument ++ "'\n" ++ synopsis

end Usage

namespace Options

structure Seen where
  file : Option String := none
  steps : Option Nat := none
  seed : Option Nat := none
  trace : Bool := false
deriving DecidableEq, Inhabited

/-- The number that is the value of an option given for the first time. -/
def number (option value : String) (earlier : Option Nat) : Except Usage (Option Nat) :=
  match earlier, wordOfText? value.toList with
  | some _, _ => .error (.repeated option)
  | none, some n => .ok (some n)
  | none, none => .error (.invalidValue option value)

def setFile (seen : Seen) (file : String) : Except Usage Seen :=
  match seen.file with
  | none => .ok { seen with file := some file }
  | some _ => .error (.unexpected file)

def looksLikeOption (argument : String) : Bool :=
  match argument.toList with
  | '-' :: _ :: _ => true
  | _ => false

/-- The value of an option that is written with an equals sign. -/
def attached? (option argument : String) : Option String :=
  let start := option.toList ++ ['=']
  if start.isPrefixOf argument.toList then some (.ofList (argument.toList.drop start.length))
  else none

def single (seen : Seen) (argument : String) : Except Usage Seen :=
  if argument = "--help" ∨ argument = "-h" then .error .help
  else if argument = "--version" ∨ argument = "-V" then .error .version
  else if argument = "--trace" then
    if seen.trace then .error (.repeated argument) else .ok { seen with trace := true }
  else
    match attached? "--steps" argument, attached? "--seed" argument with
    | some value, _ =>
      (number "--steps" value seen.steps).map fun steps => { seen with steps }
    | none, some value => (number "--seed" value seen.seed).map fun seed => { seen with seed }
    | none, none =>
      if looksLikeOption argument then .error (.unexpected argument) else setFile seen argument

def collect (seen : Seen) : List String → Except Usage Seen
  | [] => .ok seen
  | ["--steps"] => .error (.missingValue "--steps")
  | ["--seed"] => .error (.missingValue "--seed")
  | argument :: value :: rest =>
    if argument = "--" then (value :: rest).foldlM setFile seen
    else if argument = "--steps" then
      match number argument value seen.steps with
      | .ok steps => collect { seen with steps } rest
      | .error usage => .error usage
    else if argument = "--seed" then
      match number argument value seen.seed with
      | .ok seed => collect { seen with seed } rest
      | .error usage => .error usage
    else
      match single seen argument with
      | .ok seen => collect seen (value :: rest)
      | .error usage => .error usage
  | [argument] => if argument = "--" then .ok seen else single seen argument

def parse (arguments : List String) : Except Usage Options :=
  match collect {} arguments with
  | .error usage => .error usage
  | .ok seen =>
    match seen.file with
    | none => .error .missingFile
    | some file => .ok ⟨file, seen.steps, seen.seed.map .ofNat, seen.trace⟩

end Options

end LineAsm
