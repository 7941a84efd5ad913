import LineAsm.Proofs.Control

set_option autoImplicit false

/-!
# What is left of an instruction

Once an instruction has read some values, the rest of its plan depends on nothing but the line, the
labels and these values. Either another operand is read, and `Line.asks_residue` says which, or the
instruction comes to its effect: what a move, a call or a return does is seen from the line.
-/

namespace LineAsm

/-! ### The operand to read -/

/-- The instructions that take the values of their operands as numbers. -/
def Opcode.isNumeric : Opcode → Bool
  | .testNumbers _ => true
  | .toNumber => true
  | .jump => true
  | .jumpBy => true
  | .call => true
  | .slice => true
  | .binary _ => true
  | .unary _ => true
  | _ => false

/-- The operand that an instruction reads once it has read the given values. Sources are read in
order, and an instruction on numbers stops at a value that is none. -/
def Opcode.nextSource? (op : Opcode) (a b : Option Token) (vs : List Value) :
    Option (Option Token) :=
  if !op.isNumeric || vs.all Value.isNumber then (op.sources a b)[vs.length]? else none

namespace Line

def nextSource? (l : Line) (vs : List Value) : Option (Option Token) :=
  match l.head.kind with
  | .opcode op => op.nextSource? l.operands[0]? l.operands[1]? vs
  | _ => none

/-- The line is a move to a destination of the given kind. -/
def MovesTo (l : Line) (k : TokenKind) : Prop :=
  l.head.kind = .opcode .move ∧ l.operands[1]?.map Token.kind = some k

/-- The line is a call of a subroutine, and it is known where that is: its label is defined, or the
value that was read is a number. -/
def CallsWith (labels : Labels) (l : Line) (vs : List Value) : Prop :=
  l.head.kind = .opcode .call ∧
    if Operand.isLabel l.operands[0]? then Operand.isDefined labels l.operands[0]? = true
    else vs.head?.any Value.isNumber = true

end Line

namespace Plan

def asks : Plan → Option (Option Token)
  | .read operand _ => some operand
  | _ => none

theorem residue_eq_of_asks {q : Plan} (h : q.asks = none) (vs : List Value) :
    q.residue vs = q := by
  cases q with
  | done e => cases vs <;> rfl
  | fail f => cases vs <;> rfl
  | read operand next => cases h

theorem residue_done (e : Effect) (vs : List Value) : (done e).residue vs = .done e :=
  residue_eq_of_asks rfl vs

theorem residue_fail (f : Fault) (vs : List Value) : (fail f).residue vs = .fail f :=
  residue_eq_of_asks rfl vs

theorem residue_readNumber (operand : Option Token) (next : Number → Plan) (v : Value)
    (vs : List Value) :
    (readNumber operand next).residue (v :: vs) =
      v.number?.elim (.fail (.notANumber (Text.quoted v.display))) fun x =>
        (next x).residue vs := by
  rw [readNumber, residue, Value.toNumber]
  cases v.number? with
  | some x => rfl
  | none => exact residue_fail _ vs

/-- A plan that follows some operands goes on with the others once these have values. -/
theorem Follows.residue {ψ : Effect → Prop} {φ : Fault → Prop} {q : Plan}
    {os : List (Option Token)} (h : q.Follows ψ φ os) (vs : List Value) :
    (q.residue vs).Follows ψ φ (os.drop vs.length) := by
  induction q generalizing os vs with
  | done e =>
    obtain ⟨rfl, he⟩ := h
    rw [residue_done, List.drop_nil]
    exact ⟨rfl, he⟩
  | fail f =>
    rw [residue_fail]
    exact h
  | read operand next ih =>
    cases vs with
    | nil => exact h
    | cons v vs =>
      obtain ⟨rest, rfl, hnext⟩ := h
      exact ih v (hnext v) vs

theorem asks_write (b : Option Token) (v : Value) : (write b v).asks = none := by
  have h := write_allows b v
  cases hw : write b v with
  | read operand next =>
    rw [hw] at h
    obtain ⟨rest, hnil, -⟩ := h
    cases hnil
  | _ => rfl

theorem residue_write (b : Option Token) (v : Value) (vs : List Value) :
    (write b v).residue vs = write b v :=
  residue_eq_of_asks (asks_write b v) vs

section

variable (a b : Option Token) (vs : List Value)

theorem asks_readNumber (e : Number → Effect) :
    ((readNumber a fun x => .done (e x)).residue vs).asks =
      if vs.all Value.isNumber then [a][vs.length]? else none := by
  cases vs with
  | nil => rfl
  | cons v vs =>
    rw [residue_readNumber, List.all_cons, Value.isNumber]
    cases v.number? with
    | none => simp [asks]
    | some x => simp [residue_done, asks]

theorem asks_readNumbers (e : Number → Number → Effect) :
    ((readNumber a fun x => readNumber b fun y => .done (e x y)).residue vs).asks =
      if vs.all Value.isNumber then [a, b][vs.length]? else none := by
  cases vs with
  | nil => rfl
  | cons v vs =>
    rw [residue_readNumber, List.all_cons, Value.isNumber]
    cases v.number? with
    | none => simp [asks]
    | some x => simpa using asks_readNumber b vs (e x)

theorem asks_read (e : Value → Effect) :
    ((Plan.read a fun v => .done (e v)).residue vs).asks = [a][vs.length]? := by
  cases vs with
  | nil => rfl
  | cons v vs => simp [residue, asks]

theorem asks_reads (e : Value → Value → Effect) :
    ((Plan.read a fun v => .read b fun w => .done (e v w)).residue vs).asks =
      [a, b][vs.length]? := by
  cases vs with
  | nil => rfl
  | cons v vs => simpa [residue] using asks_read b vs (e v)

theorem asks_target (labels : Labels) (e : Int → Effect) :
    ((target labels a fun position => .done (e position)).residue vs).asks =
      if vs.all Value.isNumber then (if Operand.isLabel a then [] else [a])[vs.length]?
      else none := by
  cases a with
  | none => exact asks_readNumber none vs _
  | some t =>
    obtain ⟨kind, name, line⟩ := t
    cases kind with
    | label =>
      simp only [target]
      cases labels.get? name with
      | some index => simp [residue_done, asks, Operand.isLabel]
      | none => simp [residue_fail, asks, Operand.isLabel]
    | _ => exact asks_readNumber (some _) vs _

end

theorem asks_ofOpcode (labels : Labels) (op : Opcode) (a b : Option Token) (vs : List Value) :
    ((ofOpcode labels op a b).residue vs).asks = op.nextSource? a b vs := by
  cases op with
  | testNumbers | slice | binary => exact asks_readNumbers a b vs _
  | toNumber | jumpBy | unary => exact asks_readNumber a vs _
  | jump | call => exact asks_target a vs labels _
  | testTexts | concat => exact asks_reads a b vs _
  | testNumeric | toText | length => exact asks_read a vs _
  | «return» =>
    change ((done Effect.return).residue vs).asks = _
    rw [residue_done]
    rfl
  | move =>
    cases vs with
    | nil => rfl
    | cons v vs =>
      change ((write b v).residue vs).asks = _
      rw [residue_write, asks_write]
      rfl

end Plan

theorem Line.asks_residue (labels : Labels) (l : Line) (vs : List Value) :
    ((l.plan labels).residue vs).asks = l.nextSource? vs := by
  unfold plan nextSource?
  cases l.head.kind with
  | opcode op => exact Plan.asks_ofOpcode labels op _ _ vs
  | label | skip => rw [Plan.residue_done]; rfl
  | _ => rw [Plan.residue_fail]; rfl

/-! ### The effect at the end -/

def Effect.limited? : Effect → Option TokenKind
  | .push _ => some .push
  | .store _ => some .memory
  | _ => none

theorem Opcode.eq_move_of_allows {op : Opcode} {e : Effect} {k : TokenKind}
    (h : op.allows e = true) (hk : e.limited? = some k) : op = .move := by
  cases e with
  | push v | store v => cases op <;> first | rfl | cases h
  | _ => cases hk

namespace Plan

theorem write_limited_iff {k : TokenKind} (hk : k = .push ∨ k = .memory) (b : Option Token)
    (v : Value) :
    (∃ e, write b v = .done e ∧ e.limited? = some k) ↔ b.map Token.kind = some k := by
  cases b with
  | none => simp [write]
  | some t =>
    obtain ⟨kind, text, line⟩ := t
    cases kind with
    | address =>
      unfold write
      rcases hk with rfl | rfl <;> cases v.toAddress <;> simp [Effect.limited?]
    | _ => rcases hk with rfl | rfl <;> simp [write, Effect.limited?]

theorem target_done_iff (labels : Labels) (a : Option Token) (e : Int → Effect)
    (vs : List Value) :
    (∃ i, (target labels a fun i => .done (e i)).residue vs = .done (e i)) ↔
      if Operand.isLabel a then Operand.isDefined labels a = true
      else vs.head?.any Value.isNumber = true := by
  have hnumber : (∃ i, (readNumber a fun n => .done (e (n.floor.sub .one).toInt)).residue vs =
      .done (e i)) ↔ vs.head?.any Value.isNumber = true := by
    cases vs with
    | nil => simp [readNumber, residue]
    | cons v vs =>
      rw [residue_readNumber, List.head?_cons, Option.any_some, Value.isNumber]
      cases v.number? with
      | none => simp
      | some x =>
        refine ⟨fun _ => rfl, fun _ => ⟨(x.floor.sub .one).toInt, ?_⟩⟩
        exact residue_done _ vs
  cases a with
  | none => exact hnumber
  | some t =>
    obtain ⟨kind, name, line⟩ := t
    cases kind with
    | label =>
      change _ ↔ (labels.get? name).isSome = true
      simp only [target]
      cases labels.get? name with
      | some index => exact ⟨fun _ => rfl, fun _ => ⟨index, residue_done _ vs⟩⟩
      | none => simp [residue_fail]
    | _ => exact hnumber

end Plan

namespace Line

variable {labels : Labels} {l : Line} {vs : List Value}

theorem opcode_of_residue {e : Effect} (h : (l.plan labels).residue vs = .done e)
    (he : e ≠ .nothing) : ∃ op : Opcode, l.head.kind = .opcode op ∧ op.allows e = true := by
  have hfollows := (l.plan_allows labels).residue vs
  rw [h] at hfollows
  exact opcode_of_allows hfollows.2 he

variable (labels l vs)

/-- A move has its effect once its source was read, and the destination says which. -/
theorem residue_limited_iff {k : TokenKind} (hk : k = .push ∨ k = .memory) :
    (∃ e, (l.plan labels).residue vs = .done e ∧ e.limited? = some k) ↔
      l.MovesTo k ∧ vs ≠ [] := by
  have hplan : l.head.kind = .opcode .move →
      l.plan labels = .read l.operands[0]? (Plan.write l.operands[1]?) := by
    intro hop
    simp only [plan, hop, Plan.ofOpcode]
  constructor
  · rintro ⟨e, h, he⟩
    obtain ⟨op, hop, hallows⟩ := opcode_of_residue h (by rintro rfl; cases he)
    obtain rfl := Opcode.eq_move_of_allows hallows he
    rw [hplan hop] at h
    cases vs with
    | nil => cases h
    | cons v vs =>
      have hw : Plan.write l.operands[1]? v = .done e := (Plan.residue_write _ v vs).symm.trans h
      exact ⟨⟨hop, (Plan.write_limited_iff hk _ v).1 ⟨e, hw, he⟩⟩, List.cons_ne_nil v vs⟩
  · rintro ⟨⟨hop, hkind⟩, hvs⟩
    obtain ⟨v, ws, rfl⟩ := List.exists_cons_of_ne_nil hvs
    obtain ⟨e, hw, he⟩ := (Plan.write_limited_iff hk _ v).2 hkind
    refine ⟨e, ?_, he⟩
    rw [hplan hop]
    exact (Plan.residue_write _ v ws).trans hw

theorem residue_call_iff :
    (∃ position, (l.plan labels).residue vs = .done (.call position)) ↔
      l.CallsWith labels vs := by
  have hplan : l.head.kind = .opcode .call → l.plan labels =
      .target labels l.operands[0]? fun position => .done (.call position) := by
    intro hop
    simp only [plan, hop, Plan.ofOpcode]
  constructor
  · rintro ⟨position, h⟩
    obtain ⟨op, hop, hallows⟩ := opcode_of_residue h (by intro he; cases he)
    obtain rfl := Opcode.eq_call_of_allows hallows
    rw [hplan hop] at h
    exact ⟨hop, (Plan.target_done_iff labels _ _ vs).1 ⟨position, h⟩⟩
  · rintro ⟨hop, hknown⟩
    rw [hplan hop]
    exact (Plan.target_done_iff labels _ _ vs).2 hknown

theorem residue_return_iff :
    (l.plan labels).residue vs = .done .return ↔ l.head.kind = .opcode .return := by
  constructor
  · intro h
    obtain ⟨op, hop, hallows⟩ := opcode_of_residue h (by intro he; cases he)
    obtain rfl := Opcode.eq_return_of_allows hallows
    exact hop
  · intro hop
    have hplan : l.plan labels = .done .return := by simp only [plan, hop, Plan.ofOpcode]
    rw [hplan, Plan.residue_done]

end Line

end LineAsm
