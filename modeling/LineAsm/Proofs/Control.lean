import LineAsm.Proofs.Following
import LineAsm.Proofs.Requests

set_option autoImplicit false

/-!
# How control moves

Only a few effects touch the program counter and the call stack, and each of them belongs to an
opcode. `State.Consistent.control` says all that a request can do to control: rest where it is, go
on after some line, enter a subroutine, or return from one.
-/

namespace LineAsm

/-- The effects that an instruction with the opcode can have. -/
def Opcode.allows (op : Opcode) (e : Effect) : Bool :=
  match op, e with
  | .testNumbers _, .skipUnless _ => true
  | .testTexts _, .skipUnless _ => true
  | .testNumeric, .skipUnless _ => true
  | .toNumber, .setRegister .acc _ => true
  | .toText, .setRegister .acc _ => true
  | .jump, .jump _ => true
  | .jumpBy, .jumpBy _ => true
  | .call, .call _ => true
  | .return, .return => true
  | .concat, .setRegister .acc _ => true
  | .slice, .slice _ _ => true
  | .binary _, .setRegister .acc _ => true
  | .unary _, .setRegister .acc _ => true
  | .length, .setRegister .acc _ => true
  | .move, .nothing => true
  | .move, .setRegister _ _ => true
  | .move, .output _ => true
  | .move, .setAddress _ => true
  | .move, .store _ => true
  | .move, .push _ => true
  | _, _ => false

def Line.allows (l : Line) (e : Effect) : Bool :=
  match l.head.kind with
  | .opcode op => op.allows e
  | .label => e == .nothing
  | .skip => e == .nothing
  | _ => false

namespace Plan

theorem write_allows (b : Option Token) (v : Value) :
    (write b v).Follows (fun e => Opcode.move.allows e = true) (fun _ => True) [] := by
  cases b with
  | none => exact trivial
  | some t =>
    obtain ⟨kind, text, line⟩ := t
    cases kind with
    | address =>
      unfold write
      cases v.toAddress with
      | ok a => exact ⟨rfl, rfl⟩
      | error f => exact trivial
    | output | register | memory | push | void => exact ⟨rfl, rfl⟩
    | _ => exact trivial

theorem ofOpcode_allows (labels : Labels) (op : Opcode) (a b : Option Token) :
    (ofOpcode labels op a b).Follows (fun e => op.allows e = true) (fun _ => True)
      (op.sources a b) := by
  cases op with
  | testNumbers | slice | binary =>
    exact follows_readNumber (fun _ _ => trivial) fun _ =>
      follows_readNumber (fun _ _ => trivial) fun _ => ⟨rfl, rfl⟩
  | testTexts | concat => exact ⟨[b], rfl, fun _ => ⟨[], rfl, fun _ => ⟨rfl, rfl⟩⟩⟩
  | testNumeric | toText | length => exact ⟨[], rfl, fun _ => ⟨rfl, rfl⟩⟩
  | toNumber | jumpBy | unary =>
    exact follows_readNumber (fun _ _ => trivial) fun _ => ⟨rfl, rfl⟩
  | jump | call =>
    simp only [ofOpcode, Opcode.sources]
    exact follows_target (fun _ _ => trivial) (fun _ _ => ⟨rfl, rfl⟩) fun _ _ _ => trivial
  | «return» => exact ⟨rfl, rfl⟩
  | move => exact ⟨[], rfl, write_allows b⟩

end Plan

theorem Line.plan_allows (labels : Labels) (l : Line) :
    (l.plan labels).Follows (fun e => l.allows e = true) (fun _ => True) l.sources := by
  unfold plan allows sources
  cases l.head.kind with
  | opcode op => exact Plan.ofOpcode_allows labels op _ _
  | label | skip => exact ⟨rfl, rfl⟩
  | _ => exact trivial

/-- The call stack after an effect. -/
def Effect.callsAfter {δ : Type} (e : Effect) (s : State δ) : Stack Nat :=
  match e with
  | .call _ => s.calls.add s.pc
  | .return => s.calls.drop
  | _ => s.calls

theorem Effect.calls_apply {δ : Type} [Device δ] (e : Effect) (p : Program) (s : State δ) :
    (e.apply p s).calls = e.callsAfter s := by
  cases e with
  | skipUnless test => cases test <;> rfl
  | jumpBy offset =>
    rw [apply_jumpBy]
    generalize relative s.pc offset = position
    rfl
  | _ => rfl

/-- What a request can do to control, by its answer. -/
inductive ControlStep {δ : Type} (p : Program) (s : State δ) :
    Option (Except Diagnostic Event) → State δ → Prop where
  | rests {a : Option (Except Diagnostic Event)} {u : State δ} (ha : a ≠ some (.ok .stepped))
      (hpc : u.pc = s.pc) (hcalls : u.calls = s.calls) : ControlStep p s a u
  | passes {u : State δ} (hop : (p.line s.pc).head.kind ≠ .opcode .call) (i : Nat)
      (hpc : u.pc = p.following i) (hcalls : u.calls = s.calls) :
      ControlStep p s (some (.ok .stepped)) u
  | enters {u : State δ} (hop : (p.line s.pc).head.kind = .opcode .call) (i : Nat)
      (hpc : u.pc = p.following i) (hcalls : u.calls = s.calls.add s.pc) :
      ControlStep p s (some (.ok .stepped)) u
  | returns {u : State δ} (hop : (p.line s.pc).head.kind = .opcode .return) (i : Nat)
      (htop : s.calls.top? = some i) (hpc : u.pc = p.following i)
      (hcalls : u.calls = s.calls.drop) : ControlStep p s (some (.ok .stepped)) u

theorem Line.opcode_of_allows {l : Line} {e : Effect} (h : l.allows e = true)
    (he : e ≠ .nothing) : ∃ op : Opcode, l.head.kind = .opcode op ∧ op.allows e = true := by
  unfold allows at h
  cases hk : l.head.kind with
  | opcode op =>
    rw [hk] at h
    exact ⟨op, rfl, h⟩
  | label | skip =>
    rw [hk] at h
    exact absurd (eq_of_beq h) he
  | _ =>
    rw [hk] at h
    cases h

theorem Line.ne_call_of_allows {l : Line} {e : Effect} (h : l.allows e = true)
    (he : ∀ position, e ≠ .call position) : l.head.kind ≠ .opcode .call := by
  intro hk
  rw [allows, hk] at h
  cases e with
  | call position => exact he position rfl
  | _ => cases h

namespace Opcode

def isTest : Opcode → Bool
  | .testNumbers _ => true
  | .testTexts _ => true
  | .testNumeric => true
  | _ => false

theorem isTest_of_allows {op : Opcode} {test : Bool} (h : op.allows (.skipUnless test) = true) :
    op.isTest = true := by
  cases op <;> first | rfl | cases h

theorem eq_jump_of_allows {op : Opcode} {position : Int}
    (h : op.allows (.jump position) = true) : op = .jump := by
  cases op <;> first | rfl | cases h

theorem eq_jumpBy_of_allows {op : Opcode} {offset : Number}
    (h : op.allows (.jumpBy offset) = true) : op = .jumpBy := by
  cases op <;> first | rfl | cases h

theorem eq_call_of_allows {op : Opcode} {position : Int}
    (h : op.allows (.call position) = true) : op = .call := by
  cases op <;> first | rfl | cases h

theorem eq_return_of_allows {op : Opcode} (h : op.allows .return = true) :
    op = .return := by
  cases op <;> first | rfl | cases h

end Opcode

/-! ### What a step keeps -/

section

variable {δ : Type}

theorem ControlStep.of_calls_eq {p : Program} {s u : State δ}
    (hop : (p.line s.pc).head.kind ≠ .opcode .call) (h : u.calls = s.calls) :
    ControlStep p s (some (.ok .stepped)) { u.settle with pc := p.following u.pc } :=
  .passes hop u.pc rfl h

theorem Stack.mem_of_mem_drop {α : Type} {s : Stack α} {a : α} (h : a ∈ s.drop.items) :
    a ∈ s.items := by
  obtain ⟨k, hk, rfl⟩ := Array.mem_iff_getElem.1 h
  have hlt : k < s.items.size := by
    simp only [drop, Array.size_pop] at hk
    omega
  exact Array.mem_iff_getElem.2 ⟨k, hlt, by simp only [drop, Array.getElem_pop]⟩

theorem ControlStep.pc_lt {p : Program} {s u : State δ} {a : Option (Except Diagnostic Event)}
    (h : ControlStep p s a u) (hp : 0 < p.size) (hs : s.pc < p.size) : u.pc < p.size := by
  cases h with
  | rests _ hpc _ => exact hpc ▸ hs
  | passes _ i hpc _ => exact hpc ▸ Program.following_lt hp i
  | enters _ i hpc _ => exact hpc ▸ Program.following_lt hp i
  | returns _ i _ hpc _ => exact hpc ▸ Program.following_lt hp i

/-- The program counter and the saved lines lie inside the program. -/
structure State.InBounds (p : Program) (s : State δ) : Prop where
  pc : s.pc < p.size
  calls : ∀ i ∈ s.calls.items, i < p.size

/-- The call stack has its name, and its entries are lines with calls. -/
structure CallsOrdered (p : Program) (s : State δ) : Prop where
  name : s.calls.name = "CALL STACK"
  opcode : ∀ i ∈ s.calls.items, (p.line i).head.kind = .opcode .call

theorem ControlStep.callsOrdered {p : Program} {s u : State δ}
    {a : Option (Except Diagnostic Event)} (h : ControlStep p s a u) (hs : CallsOrdered p s) :
    CallsOrdered p u := by
  cases h with
  | rests _ _ hcalls => exact ⟨hcalls ▸ hs.name, hcalls ▸ hs.opcode⟩
  | passes _ _ _ hcalls => exact ⟨hcalls ▸ hs.name, hcalls ▸ hs.opcode⟩
  | enters hop _ _ hcalls =>
    refine ⟨hcalls ▸ hs.name, ?_⟩
    intro i hi
    rw [hcalls] at hi
    rcases Array.mem_push.1 hi with hi | rfl
    · exact hs.opcode i hi
    · exact hop
  | returns _ _ _ _ hcalls =>
    refine ⟨hcalls ▸ hs.name, ?_⟩
    intro i hi
    rw [hcalls] at hi
    exact hs.opcode i (Stack.mem_of_mem_drop hi)

end

/-! ### What a request does, and what a run keeps -/

variable {δ : Type} [Device δ]

/-- The effect takes place in a state `u` that agrees with `s` on control. -/
theorem ControlStep.of_effect {p : Program} {s u : State δ} {e : Effect} (hpc : u.pc = s.pc)
    (hcalls : u.calls = s.calls) (ha : (p.line s.pc).allows e = true) (hf : e.fault? u = none) :
    ControlStep p s (some (.ok .stepped))
      { (e.apply p u).settle with pc := p.following (e.apply p u).pc } := by
  have hafter : (e.apply p u).calls = e.callsAfter u := e.calls_apply p u
  cases e with
  | call position =>
    obtain ⟨op, hop, hallows⟩ := Line.opcode_of_allows ha (by simp)
    obtain rfl := Opcode.eq_call_of_allows hallows
    refine .enters hop _ rfl (hafter.trans ?_)
    rw [Effect.callsAfter, hpc, hcalls]
  | «return» =>
    obtain ⟨op, hop, hallows⟩ := Line.opcode_of_allows ha (by simp)
    obtain rfl := Opcode.eq_return_of_allows hallows
    cases htop : u.calls.top? with
    | none => simp [Effect.fault?, (Stack.top?_eq_none_iff u.calls).1 htop] at hf
    | some i =>
      refine .returns hop i (hcalls ▸ htop) ?_ (hafter.trans ?_)
      · simp only [Effect.apply, htop, Option.getD_some]
      · rw [Effect.callsAfter, hcalls]
  | _ => exact .of_calls_eq (Line.ne_call_of_allows ha (by simp)) (hafter.trans hcalls)

theorem Line.allows_of_leads {labels : Labels} {l : Line} {rs : List (Token × Value)} {e : Effect}
    (h : (l.plan labels).Leads rs (.done e)) : l.allows e = true := by
  obtain ⟨-, -, -, hallows⟩ := h.follows (l.plan_allows labels)
  exact hallows

theorem State.Consistent.control {p : Program} {s : State δ} (h : s.Consistent p)
    (r : Request δ) : ControlStep p s (s.serve p r).1 (s.serve p r).2 := by
  cases r with
  | reseed seed => exact .rests (fun h => nomatch h) rfl rfl
  | attach device => exact .rests (fun h => nomatch h) rfl rfl
  | call c =>
    change ControlStep p s (some (s.call p c).1) (s.call p c).2
    cases hc : s.admits c with
    | false =>
      rw [call_of_not_admits hc]
      refine .rests ?_ rfl rfl
      cases c <;> exact fun h => nomatch h
    | true =>
      obtain ⟨rs, q, ending, -, hl, he, heq⟩ := h.exists_ends hc
      have hpc := (consumed_reached p s c).pc
      have hcalls := (consumed_reached p s c).calls
      rw [heq]
      cases he with
      | suspended _ _ | refused _ | failed _ | unreadable _ _ =>
        exact .rests (fun h => nomatch h) hpc hcalls
      | completed hfault => exact .of_effect hpc hcalls (Line.allows_of_leads hl) hfault

theorem Reachable.pc_lt {p : Program} {s : State δ} (h : Reachable p s) (hp : 0 < p.size) :
    s.pc < p.size := by
  induction h with
  | boot generator device => exact hp
  | call hs c ih => exact (hs.consistent.control (.call c)).pc_lt hp ih
  | reseed _ seed ih => exact ih
  | attach _ device ih => exact ih

theorem Reachable.callsOrdered {p : Program} {s : State δ} (h : Reachable p s) :
    CallsOrdered p s := by
  induction h with
  | boot generator device => exact ⟨rfl, fun i hi => absurd hi (Array.not_mem_empty i)⟩
  | call hs c ih => exact (hs.consistent.control (.call c)).callsOrdered ih
  | reseed _ seed ih => exact ⟨ih.name, ih.opcode⟩
  | attach _ device ih => exact ⟨ih.name, ih.opcode⟩

theorem Reachable.inBounds {p : Program} {s : State δ} (h : Reachable p s) (hp : 0 < p.size) :
    s.InBounds p :=
  ⟨h.pc_lt hp, fun i hi => (Program.isExecutable_of_opcode (h.callsOrdered.opcode i hi)).1⟩

end LineAsm
