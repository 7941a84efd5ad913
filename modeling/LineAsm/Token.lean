import LineAsm.Opcode
import LineAsm.Register

set_option autoImplicit false

/-!
# Tokens

A token is a word, literal or label of a source line. It keeps its spelling, in upper case unless
it is a string, so that lines can be shown again, and the index of its line.
-/

namespace LineAsm

inductive TokenKind where
  | opcode (op : Opcode)
  | register (r : Register)
  | push
  | pop
  | top
  | void
  | memory
  | address
  | input
  | output
  | random
  | string
  | number
  | label
  /-- Stands on a line that has nothing else. -/
  | skip
deriving DecidableEq, Inhabited

structure Token where
  kind : TokenKind
  text : String
  line : Nat
deriving DecidableEq, Inhabited

namespace Token

def spelled (kind : TokenKind) (text : String) (line : Nat) : Token :=
  match kind with
  | .string => ⟨kind, text, line⟩
  | _ => ⟨kind, .ofList (text.toList.map Char.toUpper), line⟩

def skip (line : Nat) : Token := ⟨.skip, "", line⟩

def isInert (t : Token) : Bool :=
  match t.kind with
  | .label => true
  | .skip => true
  | _ => false

def render (t : Token) : String :=
  match t.kind with
  | .string => "\"" ++ t.text ++ "\""
  | _ => t.text

end Token

end LineAsm
