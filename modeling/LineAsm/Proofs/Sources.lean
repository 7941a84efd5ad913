import LineAsm.Proofs.Readings

set_option autoImplicit false

/-!
# The operands of a line

Each opcode reads some of its operands as sources and gives the others another role. A line is well
formed if its operands can play their roles. `Line.plan_follows` ties this to the plan of the line:
the plan reads the sources in order, an effect stands at its end only if the other roles are filled,
and a fault of a role only if the line is not well formed.
-/

namespace LineAsm

def TokenKind.isDestination : TokenKind → Bool
  | .register _ => true
  | .address => true
  | .memory => true
  | .push => true
  | .output => true
  | .void => true
  | _ => false

namespace Operand

def isSource (operand : Option Token) : Bool := operand.any fun t => t.kind.isSource

def isDestination (operand : Option Token) : Bool := operand.any fun t => t.kind.isDestination

def isLabel (operand : Option Token) : Bool := operand.any fun t => t.kind == .label

def isDefined (labels : Labels) (operand : Option Token) : Bool :=
  operand.any fun t => t.kind == .label && (labels.get? t.text).isSome

end Operand

namespace Opcode

def sources (op : Opcode) (a b : Option Token) : List (Option Token) :=
  match op with
  | .testNumbers _ => [a, b]
  | .testTexts _ => [a, b]
  | .concat => [a, b]
  | .slice => [a, b]
  | .binary _ => [a, b]
  | .testNumeric => [a]
  | .toNumber => [a]
  | .toText => [a]
  | .jumpBy => [a]
  | .unary _ => [a]
  | .length => [a]
  | .move => [a]
  | .jump => if Operand.isLabel a then [] else [a]
  | .call => if Operand.isLabel a then [] else [a]
  | .return => []

/-- Whether the operands can play the roles that the opcode gives them. -/
def accepts (labels : Labels) (op : Opcode) (a b : Option Token) : Bool :=
  match op with
  | .testNumbers _ => Operand.isSource a && Operand.isSource b
  | .testTexts _ => Operand.isSource a && Operand.isSource b
  | .concat => Operand.isSource a && Operand.isSource b
  | .slice => Operand.isSource a && Operand.isSource b
  | .binary _ => Operand.isSource a && Operand.isSource b
  | .testNumeric => Operand.isSource a
  | .toNumber => Operand.isSource a
  | .toText => Operand.isSource a
  | .jumpBy => Operand.isSource a
  | .unary _ => Operand.isSource a
  | .length => Operand.isSource a
  | .move => Operand.isSource a && Operand.isDestination b
  | .jump => Operand.isDefined labels a || Operand.isSource a
  | .call => Operand.isDefined labels a || Operand.isSource a
  | .return => true

/-- Whether the operands that are not read can play their roles. -/
def fills (labels : Labels) (op : Opcode) (a b : Option Token) : Bool :=
  match op with
  | .move => Operand.isDestination b
  | .jump => !Operand.isLabel a || Operand.isDefined labels a
  | .call => !Operand.isLabel a || Operand.isDefined labels a
  | _ => true

theorem target_accepts (labels : Labels) (a : Option Token) :
    (Operand.isDefined labels a || Operand.isSource a) =
      ((if Operand.isLabel a then [] else [a]).all Operand.isSource &&
        (!Operand.isLabel a || Operand.isDefined labels a)) := by
  cases a with
  | none => rfl
  | some t =>
    by_cases h : t.kind = .label
    · simp [Operand.isDefined, Operand.isSource, Operand.isLabel, h, TokenKind.isSource]
    · have hb : (t.kind == .label) = false := beq_eq_false_iff_ne.2 h
      simp [Operand.isDefined, Operand.isSource, Operand.isLabel, hb]

theorem accepts_eq (labels : Labels) (op : Opcode) (a b : Option Token) :
    op.accepts labels a b = ((op.sources a b).all Operand.isSource && op.fills labels a b) := by
  cases op with
  | jump => exact target_accepts labels a
  | call => exact target_accepts labels a
  | _ => simp [accepts, sources, fills]

end Opcode

namespace Line

def sources (l : Line) : List (Option Token) :=
  match l.head.kind with
  | .opcode op => op.sources l.operands[0]? l.operands[1]?
  | _ => []

def sourceCount (l : Line) (k : TokenKind) : Nat :=
  l.sources.countP fun operand => operand.any fun t => t.kind == k

/-- Whether a line does nothing, or is an instruction with operands that it accepts. -/
def isWellFormed (labels : Labels) (l : Line) : Bool :=
  l.isInert ||
    match l.head.kind with
    | .opcode op => op.accepts labels l.operands[0]? l.operands[1]?
    | _ => false

def fills (labels : Labels) (l : Line) : Bool :=
  match l.head.kind with
  | .opcode op => op.fills labels l.operands[0]? l.operands[1]?
  | .label => true
  | .skip => true
  | _ => false

theorem isWellFormed_eq (labels : Labels) (l : Line) :
    l.isWellFormed labels = (l.sources.all Operand.isSource && l.fills labels) := by
  unfold isWellFormed sources fills isInert Token.isInert
  cases l.head.kind with
  | opcode op => exact Opcode.accepts_eq labels op _ _
  | _ => rfl

end Line

/-- The classes of faults that lie in the role of an operand or of the head of a line. -/
def FaultClass.isRole : FaultClass → Bool
  | .unknownInstruction => true
  | .invalidSource => true
  | .invalidDestination => true
  | .undefinedLabel => true
  | _ => false

def FaultClass.isValue : FaultClass → Bool
  | .notANumber => true
  | .integerExpected => true
  | _ => false

namespace Plan

/-- A plan reads the given operands in order; its effects and faults have the given properties. -/
def Follows (ψ : Effect → Prop) (φ : Fault → Prop) : Plan → List (Option Token) → Prop
  | .done e, os => os = [] ∧ ψ e
  | .fail f, _ => φ f
  | .read operand next, os => ∃ rest, os = operand :: rest ∧ ∀ v, (next v).Follows ψ φ rest

theorem Leads.follows {ψ : Effect → Prop} {φ : Fault → Prop} {q r : Plan}
    {rs : List (Token × Value)} {os : List (Option Token)} (h : q.Leads rs r)
    (hq : q.Follows ψ φ os) :
    ∃ rest, os = rs.map (fun x => some x.1) ++ rest ∧ r.Follows ψ φ rest := by
  induction h generalizing os with
  | refl q => exact ⟨os, rfl, hq⟩
  | read _ _ ih =>
    obtain ⟨tail, rfl, hnext⟩ := hq
    obtain ⟨rest, rfl, hr⟩ := ih (hnext _)
    exact ⟨rest, rfl, hr⟩

theorem toClass_of_toNumber {v : Value} {f : Fault} (h : v.toNumber = .error f) :
    f.toClass = .notANumber := by
  unfold Value.toNumber at h
  split at h
  · cases h
  · cases h
    rfl

theorem toClass_of_toAddress {v : Value} {f : Fault} (h : v.toAddress = .error f) :
    f.toClass = .integerExpected := by
  unfold Value.toAddress at h
  split at h
  · cases h
  · cases h
    rfl

section

variable {ψ : Effect → Prop} {φ : Fault → Prop}

theorem follows_readNumber (hφ : ∀ f, f.toClass.isValue = true → φ f) {operand : Option Token}
    {rest : List (Option Token)} {next : Number → Plan} (h : ∀ n, (next n).Follows ψ φ rest) :
    (readNumber operand next).Follows ψ φ (operand :: rest) := by
  refine ⟨rest, rfl, ?_⟩
  intro v
  cases hv : v.toNumber with
  | ok n => simpa only [hv] using h n
  | error f =>
    simp only [hv]
    exact hφ f (by rw [toClass_of_toNumber hv]; rfl)

theorem follows_target (hφ : ∀ f, f.toClass.isValue = true → φ f) {labels : Labels}
    {a : Option Token} {next : Int → Plan}
    (h : (!Operand.isLabel a || Operand.isDefined labels a) = true → ∀ i, (next i).Follows ψ φ [])
    (hu : (!Operand.isLabel a || Operand.isDefined labels a) = false →
      ∀ f, f.toClass.isRole = true → φ f) :
    (target labels a next).Follows ψ φ (if Operand.isLabel a then [] else [a]) := by
  cases a with
  | none => exact follows_readNumber hφ fun n => h rfl _
  | some t =>
    obtain ⟨kind, name, line⟩ := t
    cases kind with
    | label =>
      simp only [target]
      change (labels.get? name).isSome = true → _ at h
      change (labels.get? name).isSome = false → _ at hu
      cases hg : labels.get? name with
      | some index => exact h (by rw [hg]; rfl) index
      | none => exact hu (by rw [hg]; rfl) (.undefinedLabel name) rfl
    | _ => exact follows_readNumber hφ fun n => h rfl _

theorem follows_write (hφ : ∀ f, f.toClass.isValue = true → φ f) {b : Option Token} {v : Value}
    (h : Operand.isDestination b = true → ∀ e, ψ e)
    (hu : Operand.isDestination b = false → ∀ f, f.toClass.isRole = true → φ f) :
    (write b v).Follows ψ φ [] := by
  cases b with
  | none => exact hu rfl .missingDestination rfl
  | some t =>
    obtain ⟨kind, text, line⟩ := t
    cases kind with
    | address =>
      unfold write
      cases hv : v.toAddress with
      | ok a => exact ⟨rfl, h rfl _⟩
      | error f => exact hφ f (by rw [toClass_of_toAddress hv]; rfl)
    | output | register | memory | push | void => exact ⟨rfl, h rfl _⟩
    | _ => exact hu rfl (.invalidDestination _) rfl

end

theorem ofOpcode_follows (labels : Labels) (op : Opcode) (a b : Option Token) :
    (ofOpcode labels op a b).Follows (fun _ => op.fills labels a b = true)
      (fun f => f.toClass.isValue = true ∨ f.toClass.isRole = true ∧ op.fills labels a b = false)
      (op.sources a b) := by
  cases op with
  | testNumbers | slice | binary =>
    exact follows_readNumber (fun _ => .inl) fun _ =>
      follows_readNumber (fun _ => .inl) fun _ => ⟨rfl, rfl⟩
  | testTexts | concat => exact ⟨[b], rfl, fun _ => ⟨[], rfl, fun _ => ⟨rfl, rfl⟩⟩⟩
  | testNumeric | toText | length => exact ⟨[], rfl, fun _ => ⟨rfl, rfl⟩⟩
  | toNumber | jumpBy | unary => exact follows_readNumber (fun _ => .inl) fun _ => ⟨rfl, rfl⟩
  | jump | call =>
    simp only [ofOpcode, Opcode.fills, Opcode.sources]
    exact follows_target (fun _ => .inl) (fun h _ => ⟨rfl, h⟩) fun h _ hf => .inr ⟨hf, h⟩
  | «return» => exact ⟨rfl, rfl⟩
  | move =>
    refine ⟨[], rfl, fun v => ?_⟩
    exact follows_write (fun _ => .inl) (fun h _ => h) fun h _ hf => .inr ⟨hf, h⟩

end Plan

/-- The plan of a line reads the sources of the line. It has an effect only where the other roles
are filled; its faults lie in values, or in the roles that are not filled. -/
theorem Line.plan_follows (labels : Labels) (l : Line) :
    (l.plan labels).Follows (fun _ => l.fills labels = true)
      (fun f => f.toClass.isValue = true ∨ f.toClass.isRole = true ∧ l.fills labels = false)
      l.sources := by
  unfold plan fills sources
  cases l.head.kind with
  | opcode op => exact Plan.ofOpcode_follows labels op _ _
  | label | skip => exact ⟨rfl, rfl⟩
  | _ => exact .inr ⟨rfl, rfl⟩

/-- The classes of faults that executing an instruction can have apart from those of a role. -/
def FaultClass.isRuntime : FaultClass → Bool
  | .notANumber => true
  | .integerExpected => true
  | .stackUnderflow => true
  | .outOfMemory => true
  | _ => false

theorem Effect.isRuntime_of_fault? {δ : Type} {e : Effect} {s : State δ} {f : Fault}
    (h : e.fault? s = some f) : f.toClass.isRuntime = true := by
  unfold fault? at h
  split at h
  all_goals first | (split at h <;> cases h; rfl) | cases h

theorem State.isRuntime_sourceFault {δ : Type} [Device δ] {s : State δ} {operand : Option Token}
    (ho : Operand.isSource operand = true) (ht : ∀ t, operand = some t → t.kind ≠ .input)
    (h : operand.bind s.value? = none) : (s.sourceFault operand).toClass.isRuntime = true := by
  cases operand with
  | none => cases ho
  | some t =>
    obtain ⟨kind, text, line⟩ := t
    cases kind with
    | input => exact absurd rfl (ht _ rfl)
    | pop | top | number => rfl
    | random | register | memory | address | string => cases h
    | _ => cases ho

theorem State.isRole_sourceFault {δ : Type} {operand : Option Token}
    (ho : Operand.isSource operand = false) (s : State δ) :
    (s.sourceFault operand).toClass.isRole = true := by
  cases operand with
  | none => rfl
  | some t =>
    obtain ⟨kind, text, line⟩ := t
    cases kind with
    | input | random | register | pop | top | memory | address | string | number => cases ho
    | _ => rfl

theorem FaultClass.isRuntime_of_isValue {k : FaultClass} (h : k.isValue = true) :
    k.isRuntime = true := by
  cases k <;> first | rfl | cases h

theorem Line.fault_class {δ : Type} [Device δ] {labels : Labels} {l : Line} {p : Program}
    {s u : State δ} {rs : List (Token × Value)} {r : Plan} {f : Fault}
    (hl : (l.plan labels).Leads rs r) (he : r.Ends p s (.failed f u)) :
    f.toClass.isRuntime = true ∨ f.toClass.isRole = true ∧ l.isWellFormed labels = false := by
  obtain ⟨rest, hsrc, hr⟩ := hl.follows (l.plan_follows labels)
  rw [isWellFormed_eq]
  cases he with
  | refused h => exact .inl (Effect.isRuntime_of_fault? h)
  | failed f =>
    rcases hr with hv | ⟨hrole, hfill⟩
    · exact .inl (FaultClass.isRuntime_of_isValue hv)
    · exact .inr ⟨hrole, by rw [hfill, Bool.and_false]⟩
  | @unreadable operand next ht h =>
    obtain ⟨tail, rfl, -⟩ := hr
    cases ho : Operand.isSource operand with
    | true => exact .inl (State.isRuntime_sourceFault ho ht h)
    | false =>
      refine .inr ⟨State.isRole_sourceFault ho s, ?_⟩
      rw [hsrc, List.all_append, List.all_cons, ho, Bool.false_and, Bool.and_false, Bool.false_and]

end LineAsm
