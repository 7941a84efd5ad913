import LineAsm.Proofs.Control

set_option autoImplicit false

/-!
# Lines that read alike

Tokens read alike if they are of one kind and stand for the same value. Lines of such tokens have
plans that agree: they read the same operands and come to the same effects, or to faults that are
the same in a given sense. Where effects name lines, as those of jumps do, agreement is left open.
-/

namespace LineAsm

/-- Tokens of one kind that read alike; where they are shown, the faults are the same. -/
structure Token.Alike (φ : Fault → Fault → Prop) (t t' : Token) : Prop where
  kind : t'.kind = t.kind
  string : t.kind = .string → t'.text = t.text
  number : t.kind = .number → t'.text = t.text
  source : φ (.invalidSource t.render) (.invalidSource t'.render)
  destination : φ (.invalidDestination t.render) (.invalidDestination t'.render)

inductive Operand.Alike (φ : Fault → Fault → Prop) : Option Token → Option Token → Prop where
  | none : Alike φ none none
  | some {t t' : Token} (h : t.Alike φ t') : Alike φ (some t) (some t')

/-- Plans with the same operands, agreeing effects and the same faults. Nothing is said of what
follows a missing operand, as it has no value. -/
inductive Plan.Agrees (ε : Effect → Effect → Prop) (φ : Fault → Fault → Prop) :
    Plan → Plan → Prop where
  | done {e e' : Effect} (h : ε e e') : Agrees ε φ (.done e) (.done e')
  | fail {x x' : Fault} (h : φ x x') : Agrees ε φ (.fail x) (.fail x')
  | missing (next next' : Value → Plan) : Agrees ε φ (.read none next) (.read none next')
  | read {t t' : Token} {next next' : Value → Plan} (ht : t.Alike φ t')
      (h : ∀ v, Agrees ε φ (next v) (next' v)) :
      Agrees ε φ (.read (some t) next) (.read (some t') next')

namespace Plan.Agrees

variable {ε : Effect → Effect → Prop} {φ : Fault → Fault → Prop}

theorem residue {q q' r : Plan}
    {rs : List (Token × Value)} (h : q.Agrees ε φ q') (hl : q.Leads rs r) :
    r.Agrees ε φ (q'.residue (rs.map Prod.snd)) := by
  induction hl generalizing q' with
  | refl q =>
    rw [List.map_nil, residue_nil]
    exact h
  | read _ _ ih =>
    cases h with
    | read _ hnext => exact ih (hnext _)

theorem ofRead {a a' : Option Token} {next next' : Value → Plan} (ha : Operand.Alike φ a a')
    (h : ∀ v, (next v).Agrees ε φ (next' v)) : (Plan.read a next).Agrees ε φ (.read a' next') := by
  cases ha with
  | none => exact .missing next next'
  | some ht => exact .read ht h

theorem ofReadNumber (hφ : ∀ x, φ x x) {a a' : Option Token} {next next' : Number → Plan}
    (ha : Operand.Alike φ a a') (h : ∀ n, (next n).Agrees ε φ (next' n)) :
    (readNumber a next).Agrees ε φ (readNumber a' next') := by
  apply ofRead ha
  intro v
  cases v.toNumber with
  | ok n => exact h n
  | error x => exact .fail (hφ x)

theorem ofWrite (hφ : ∀ x, φ x x) {b b' : Option Token} (hb : Operand.Alike φ b b')
    (hε : ∀ e, Opcode.move.allows e = true → ε e e) (v : Value) :
    (write b v).Agrees ε φ (write b' v) := by
  cases hb with
  | none => exact .fail (hφ _)
  | @some t t' ht =>
    obtain ⟨kind, text, line⟩ := t
    obtain ⟨kind', text', line'⟩ := t'
    obtain rfl : kind' = kind := ht.kind
    cases kind' with
    | address =>
      simp only [write]
      cases v.toAddress with
      | ok address => exact .done (hε _ rfl)
      | error x => exact .fail (hφ x)
    | output | register | memory | push | void => exact .done (hε _ rfl)
    | _ => exact .fail ht.destination

theorem ofOpcode (hφ : ∀ x, φ x x) {labels labels' : Labels} {op : Opcode}
    {a a' b b' : Option Token} (ha : Operand.Alike φ a a') (hb : Operand.Alike φ b b')
    (hε : ∀ e, op.allows e = true → ε e e) (hjump : op ≠ .jump) (hcall : op ≠ .call) :
    (Plan.ofOpcode labels op a b).Agrees ε φ (Plan.ofOpcode labels' op a' b') := by
  cases op with
  | jump => exact absurd rfl hjump
  | call => exact absurd rfl hcall
  | testNumbers | slice | binary =>
    exact ofReadNumber hφ ha fun _ => ofReadNumber hφ hb fun _ => .done (hε _ rfl)
  | testTexts | concat => exact ofRead ha fun _ => ofRead hb fun _ => .done (hε _ rfl)
  | testNumeric | toText | length => exact ofRead ha fun _ => .done (hε _ rfl)
  | toNumber | jumpBy | unary => exact ofReadNumber hφ ha fun _ => .done (hε _ rfl)
  | «return» => exact .done (hε _ rfl)
  | move => exact ofRead ha fun v => ofWrite hφ hb hε v

end Plan.Agrees

end LineAsm
