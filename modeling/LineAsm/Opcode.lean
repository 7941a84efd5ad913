import LineAsm.Operation

set_option autoImplicit false

/-!
# Opcodes

What an instruction does, apart from its operands.
-/

namespace LineAsm

inductive Opcode where
  /-- Compare two numbers, and pass over the next line unless the comparison holds. -/
  | testNumbers (c : Comparison)
  /-- Compare two texts, and pass over the next line unless the comparison holds. -/
  | testTexts (c : Comparison)
  /-- Pass over the next line unless the operand is a number. -/
  | testNumeric
  | toNumber
  | toText
  | jump
  | jumpBy
  | call
  | return
  | concat
  | slice
  | binary (op : BinaryOp)
  | unary (op : UnaryOp)
  | length
  | move
deriving DecidableEq, Inhabited

def Comparison.suffix : Comparison → String
  | .equal => "EQ"
  | .unequal => "NE"
  | .greater => "GT"
  | .greaterOrEqual => "GE"
  | .less => "LT"
  | .lessOrEqual => "LE"

def BinaryOp.name : BinaryOp → String
  | .add => "ADD"
  | .subtract => "SUB"
  | .multiply => "MUL"
  | .divide => "DIV"
  | .modulus => "MOD"
  | .power => "POW"
  | .min => "MIN"
  | .max => "MAX"

def UnaryOp.name : UnaryOp → String
  | .log => "LOG"
  | .floor => "FLOOR"
  | .ceil => "CEIL"

def Opcode.name : Opcode → String
  | .testNumbers c => "T" ++ c.suffix
  | .testTexts c => "T" ++ c.suffix ++ "S"
  | .testNumeric => "TNUM"
  | .toNumber => "NUM"
  | .toText => "STR"
  | .jump => "JUMP"
  | .jumpBy => "JRL"
  | .call => "JSR"
  | .return => "RET"
  | .concat => "CAT"
  | .slice => "SLC"
  | .binary op => op.name
  | .unary op => op.name
  | .length => "LEN"
  | .move => "MOV"

end LineAsm
