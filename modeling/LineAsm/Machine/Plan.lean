import LineAsm.Machine.Effect

set_option autoImplicit false

/-!
# Plans

A plan says which operands an instruction reads, in which order, and what follows from their
values: an effect or a fault. Plans depend on the line and the labels only. All reading comes before
the effect, so an instruction that waits for input can be taken up again from its first operand.
-/

namespace LineAsm

inductive Plan where
  | done (e : Effect)
  | fail (f : Fault)
  | read (operand : Option Token) (next : Value → Plan)

namespace Plan

def readNumber (operand : Option Token) (next : Number → Plan) : Plan :=
  .read operand fun v =>
    match v.toNumber with
    | .ok n => next n
    | .error f => .fail f

def accumulate (v : Value) : Plan := .done (.setRegister .acc v)

/-- Reads where a jump goes: the line of a label, or the line before a numbered one. -/
def target (labels : Labels) (operand : Option Token) (next : Int → Plan) : Plan :=
  match operand with
  | some ⟨.label, name, _⟩ =>
    match labels.get? name with
    | some index => next index
    | none => .fail (.undefinedLabel name)
  | _ => readNumber operand fun n => next (n.floor.sub .one).toInt

def write (operand : Option Token) (v : Value) : Plan :=
  match operand with
  | none => .fail .missingDestination
  | some t =>
    match t.kind with
    | .output => .done (.output v)
    | .register r => .done (.setRegister r v)
    | .address =>
      match v.toAddress with
      | .ok a => .done (.setAddress a)
      | .error f => .fail f
    | .memory => .done (.store v)
    | .push => .done (.push v)
    | .void => .done .nothing
    | _ => .fail (.invalidDestination t.render)

def ofOpcode (labels : Labels) (op : Opcode) (a b : Option Token) : Plan :=
  match op with
  | .testNumbers c =>
    readNumber a fun x => readNumber b fun y => .done (.skipUnless (c.numbers x y))
  | .testTexts c =>
    .read a fun x => .read b fun y => .done (.skipUnless (c.texts x.display y.display))
  | .testNumeric => .read a fun v => .done (.skipUnless v.isNumber)
  | .toNumber => readNumber a fun n => accumulate (.number n)
  | .toText => .read a fun v => accumulate (.text v.display)
  | .jump => target labels a fun position => .done (.jump position)
  | .jumpBy => readNumber a fun n => .done (.jumpBy n)
  | .call => target labels a fun position => .done (.call position)
  | .return => .done .return
  | .concat => .read a fun x => .read b fun y => accumulate (.text (x.display ++ y.display))
  | .slice => readNumber a fun x => readNumber b fun y => .done (.slice x y)
  | .binary op => readNumber a fun x => readNumber b fun y => accumulate (.number (op.eval x y))
  | .unary op => readNumber a fun n => accumulate (.number (op.eval n))
  | .length => .read a fun v => accumulate (.number (Text.length v.display))
  | .move => .read a fun v => write b v

end Plan

def Line.plan (labels : Labels) (l : Line) : Plan :=
  match l.head.kind with
  | .opcode op => .ofOpcode labels op l.operands[0]? l.operands[1]?
  | .label => .done .nothing
  | .skip => .done .nothing
  | _ => .fail (.unknownInstruction l.head.render)

end LineAsm
