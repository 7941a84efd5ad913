import LineAsm.Text.Blank
import LineAsm.Token

set_option autoImplicit false

/-!
# Patterns

Each kind of token has a pattern that recognises it at the start of a text. The table of patterns
is tried from the top, and the first pattern that matches decides.
-/

namespace LineAsm

def isWordChar (c : Char) : Bool := c.isAlphanum || c == '_'

inductive Pattern where
  /-- A keyword in any letter case, not continued by another word character. -/
  | word (spelling : String)
  /-- A text between quotes; a quote after a backslash does not end it. -/
  | quoted (quote : Char)
  /-- Digits after an optional minus, with an optional point among or after them. -/
  | numeral
  /-- A name after `@`, if only blanks follow. -/
  | label
  | blank
deriving DecidableEq, Inhabited

/-- What a pattern found: the text of the token, and what is left to scan. -/
structure Match where
  text : List Char
  rest : List Char
deriving DecidableEq, Inhabited

namespace Pattern

/-- What follows the given word, in any letter case. -/
def afterWord? : List Char → List Char → Option (List Char)
  | [], cs => some cs
  | _ :: _, [] => none
  | w :: ws, c :: cs => if c.toUpper = w then afterWord? ws cs else none

def endsWord : List Char → Bool
  | [] => true
  | c :: _ => !isWordChar c

/-- Splits at the first quote that no backslash precedes. -/
def closing? (quote : Char) (previous : Option Char) : List Char → Option Match
  | [] => none
  | c :: cs =>
    if c = quote ∧ previous ≠ some '\\' then some ⟨[], cs⟩
    else (closing? quote (some c) cs).map fun m => ⟨c :: m.text, m.rest⟩

def splitMinus : List Char → List Char × List Char
  | '-' :: cs => (['-'], cs)
  | cs => ([], cs)

def splitPoint : List Char → List Char × List Char
  | '.' :: cs => ('.' :: cs.takeWhile Char.isDigit, cs.dropWhile Char.isDigit)
  | cs => ([], cs)

def match? (p : Pattern) (cs : List Char) : Option Match :=
  match p with
  | .word spelling =>
    match afterWord? spelling.toList cs with
    | some rest => if endsWord rest then some ⟨cs.take spelling.length, rest⟩ else none
    | none => none
  | .quoted quote =>
    match cs with
    | c :: body => if c = quote then closing? quote none body else none
    | [] => none
  | .numeral =>
    let (minus, unsigned) := splitMinus cs
    let ints := unsigned.takeWhile Char.isDigit
    let (fraction, rest) := splitPoint (unsigned.dropWhile Char.isDigit)
    if ints.isEmpty then none else some ⟨minus ++ ints ++ fraction, rest⟩
  | .label =>
    match cs with
    | '@' :: after =>
      let name := after.takeWhile isWordChar
      if name.isEmpty || !(after.dropWhile isWordChar).all Text.isBlank then none
      else some ⟨'@' :: name, []⟩
    | _ => none
  | .blank =>
    match cs with
    | c :: rest => if Text.isBlank c then some ⟨[], rest⟩ else none
    | [] => none

/-- The words of the language. Several spellings may stand for one kind of token. -/
def keywords : List (String × TokenKind) :=
  [("TEQ", .opcode (.testNumbers .equal)),
   ("TNE", .opcode (.testNumbers .unequal)),
   ("TGT", .opcode (.testNumbers .greater)),
   ("TGE", .opcode (.testNumbers .greaterOrEqual)),
   ("TLT", .opcode (.testNumbers .less)),
   ("TLE", .opcode (.testNumbers .lessOrEqual)),
   ("TEQS", .opcode (.testTexts .equal)),
   ("TNES", .opcode (.testTexts .unequal)),
   ("TGTS", .opcode (.testTexts .greater)),
   ("TGES", .opcode (.testTexts .greaterOrEqual)),
   ("TLTS", .opcode (.testTexts .less)),
   ("TLES", .opcode (.testTexts .lessOrEqual)),
   ("TNUM", .opcode .testNumeric),
   ("NUM", .opcode .toNumber),
   ("STR", .opcode .toText),
   ("JUMP", .opcode .jump),
   ("JMP", .opcode .jump),
   ("JRL", .opcode .jumpBy),
   ("JREL", .opcode .jumpBy),
   ("JSR", .opcode .call),
   ("RSR", .opcode .return),
   ("RET", .opcode .return),
   ("CAT", .opcode .concat),
   ("SLC", .opcode .slice),
   ("ADD", .opcode (.binary .add)),
   ("SUB", .opcode (.binary .subtract)),
   ("MULT", .opcode (.binary .multiply)),
   ("MUL", .opcode (.binary .multiply)),
   ("DIV", .opcode (.binary .divide)),
   ("MOD", .opcode (.binary .modulus)),
   ("MOV", .opcode .move),
   ("MOVE", .opcode .move),
   ("POW", .opcode (.binary .power)),
   ("POWER", .opcode (.binary .power)),
   ("LOG", .opcode (.unary .log)),
   ("FLR", .opcode (.unary .floor)),
   ("FLOOR", .opcode (.unary .floor)),
   ("CEIL", .opcode (.unary .ceil)),
   ("MIN", .opcode (.binary .min)),
   ("MAX", .opcode (.binary .max)),
   ("LEN", .opcode .length),
   ("RAND", .random),
   ("ACC", .register .acc),
   ("R0", .register (.general 0)),
   ("R1", .register (.general 1)),
   ("R2", .register (.general 2)),
   ("R3", .register (.general 3)),
   ("R4", .register (.general 4)),
   ("R5", .register (.general 5)),
   ("R6", .register (.general 6)),
   ("R7", .register (.general 7)),
   ("R8", .register (.general 8)),
   ("R9", .register (.general 9)),
   ("PUSH", .push),
   ("PSH", .push),
   ("POP", .pop),
   ("TOP", .top),
   ("VOID", .void),
   ("MEM", .memory),
   ("ADDR", .address),
   ("IN", .input),
   ("OUT", .output)]

/-- The patterns in the order in which they are tried; a blank makes no token. -/
def table : List (Pattern × Option TokenKind) :=
  keywords.map (fun (spelling, kind) => (.word spelling, some kind)) ++
    [(.quoted '"', some .string),
     (.quoted '\'', some .string),
     (.numeral, some .number),
     (.label, some .label),
     (.blank, none)]

def first? (entries : List (Pattern × Option TokenKind)) (cs : List Char) :
    Option (Option TokenKind × Match) :=
  entries.findSome? fun (p, kind) => (p.match? cs).map fun m => (kind, m)

end Pattern

end LineAsm
