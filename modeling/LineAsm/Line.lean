import LineAsm.Token.Pattern

set_option autoImplicit false

/-!
# Lines

A line is a sequence of one to three tokens: a head and its operands. A source line without tokens
becomes the line of a single skip token, so that lines of the program and of the source agree.
-/

namespace LineAsm

structure Line where
  head : Token
  operands : List Token
deriving DecidableEq, Inhabited

namespace Line

def tokens (l : Line) : List Token := l.head :: l.operands

def isInert (l : Line) : Bool := l.head.isInert

def label? (l : Line) : Option Token :=
  if l.operands.isEmpty && l.head.kind == .label then some l.head else none

def render (l : Line) : String := String.intercalate " " (l.tokens.map Token.render)

def skip (index : Nat) : Line := ⟨.skip index, []⟩

/-- The part of a line before a comment, which two slashes start. -/
def beforeComment : List Char → List Char
  | '/' :: '/' :: _ => []
  | c :: cs => c :: beforeComment cs
  | [] => []

/-- Takes tokens from a text until nothing is left; the rest where no entry matches is an error.
Every match takes at least one character, so the length of the text bounds the steps. -/
def scanUpTo (entries : List (Pattern × Option TokenKind)) (steps : Nat) (cs : List Char) :
    Except (List Char) (List (TokenKind × List Char)) :=
  match steps, cs with
  | _, [] => .ok []
  | 0, rest => .error rest
  | n + 1, c :: cs =>
    match Pattern.first? entries (c :: cs) with
    | none => .error (c :: cs)
    | some (none, m) => scanUpTo entries n m.rest
    | some (some kind, m) => (scanUpTo entries n m.rest).map ((kind, m.text) :: ·)

def scan (entries : List (Pattern × Option TokenKind)) (cs : List Char) :
    Except (List Char) (List (TokenKind × List Char)) :=
  scanUpTo entries cs.length cs

def maxOperands : Nat := 2

def readWith (entries : List (Pattern × Option TokenKind)) (index : Nat) (text : List Char) :
    Except Fault Line :=
  match scan entries (beforeComment text) with
  | .error rest => .error (.unexpectedToken (.ofList (Text.trimEnd rest)))
  | .ok [] => .ok (skip index)
  | .ok (head :: operands) =>
    if maxOperands < operands.length then .error .tooManyOperands
    else .ok ⟨token head, operands.map token⟩
where
  token (found : TokenKind × List Char) : Token := .spelled found.1 (.ofList found.2) index

def read (index : Nat) (text : List Char) : Except Fault Line :=
  readWith Pattern.table index text

end Line

end LineAsm
