import LineAsm.Proofs.Protocol
import LineAsm.Proofs.Resolution
import LineAsm.Proofs.WholeNumbers
import Mathlib.Control.Monad.Basic

set_option autoImplicit false

/-!
# Jumps by number

A jump or a call with a number goes to the line of that number, a relative jump to the line that
many lines away, counted round the program in both directions; from there inert lines are passed
over. The position is computed in double precision as the line before the goal, and the advance
after the instruction makes up for it. As long as the numbers are below `2 ^ 52`, all this is exact.
-/

namespace LineAsm

def Opcode.goal? (op : Opcode) (pc : Nat) (n : Int) : Option Int :=
  match op with
  | .jump => some n
  | .call => some n
  | .jumpBy => some (pc + n)
  | _ => none

namespace State

variable {δ : Type} [Device δ]

/-- The value that the first operand of the line at hand has for a call: what it reads as if the
machine is ready, what is entered if it waits. -/
def operand? (p : Program) (s : State δ) (c : Call) : Option Value :=
  match s.status, c with
  | .ready, .step => (p.line s.pc).operands[0]?.bind s.value?
  | .waiting, .enter v => some v
  | _, _ => none

def operandFloor? (p : Program) (s : State δ) (c : Call) : Option Int :=
  (((s.operand? p c).bind Value.number?).bind Number.toRat?).map Int.floor

theorem exists_of_operandFloor? {p : Program} {s : State δ} {c : Call} {n : Int}
    (h : s.operandFloor? p c = some n) :
    ∃ v x q, s.operand? p c = some v ∧ v.number? = some x ∧ x.toRat? = some q ∧ ⌊q⌋ = n := by
  obtain ⟨q, hq, hfloor⟩ := Option.map_eq_some_iff.1 h
  obtain ⟨x, hx, hrat⟩ := Option.bind_eq_some_iff.1 hq
  obtain ⟨v, hv, hnumber⟩ := Option.bind_eq_some_iff.1 hx
  exact ⟨v, x, q, hv, hnumber, hrat, hfloor⟩

/-- The call meets an instruction with the opcode, whose operand is a number with floor `n`; if it
is a call of a subroutine, there is room on the call stack. -/
structure Jumps (p : Program) (s : State δ) (c : Call) (op : Opcode) (n : Int) : Prop where
  reachable : Reachable p s
  opcode : (p.line s.pc).head.kind = .opcode op
  operand : s.operandFloor? p c = some n
  range : n.natAbs < twoPow 52
  room : op = .call → s.calls.isFull = false

end State

/-! ### Positions -/

theorem twoPow_53 : twoPow 53 = 2 * twoPow 52 := twoPow_add 1 52

theorem twoPow_52_pos : 1 < twoPow 52 := twoPow_lt_twoPow (by decide : 0 < 52)

theorem Number.toInt_floor_sub_one {x : Number} {q : ℚ} (hx : x.toRat? = some q)
    (h : ⌊q⌋.natAbs < twoPow 52) : (x.floor.sub one).toInt = ⌊q⌋ - 1 := by
  have hlimit := twoPow_53
  have hpos := twoPow_52_pos
  exact toInt_of_toRat? (toRat?_sub_one (toRat?_floor hx (by omega)) (by omega))

theorem Effect.relative_eq {pc : Nat} {x : Number} {q : ℚ} (hpc : pc < twoPow 52)
    (hx : x.toRat? = some q) (h : ⌊q⌋.natAbs < twoPow 52) : relative pc x = pc + ⌊q⌋ - 1 := by
  have hlimit := twoPow_53
  have hpos := twoPow_52_pos
  have hfloor := Number.toRat?_floor hx (by omega)
  have hsum := Number.toRat?_add (Number.toRat?_ofNat (n := pc) (by omega)) hfloor (by omega)
  exact Number.toInt_of_toRat? (Number.toRat?_sub_one hsum (by omega))

namespace Program

theorem nextIndex_wrap_sub_one {p : Program} (hp : 0 < p.size) (goal : Int) :
    p.nextIndex (p.wrap (goal - 1)) = (goal % p.size).toNat := by
  have hsize : (p.size : Int) ≠ 0 := by omega
  have hbefore : ((p.wrap (goal - 1) : Nat) : Int) = (goal - 1) % p.size :=
    Int.toNat_of_nonneg (Int.emod_nonneg _ hsize)
  apply Int.natCast_inj.1
  calc ((p.nextIndex (p.wrap (goal - 1)) : Nat) : Int)
      = ((p.wrap (goal - 1) : Int) + 1) % p.size := by rw [nextIndex]; push_cast; rfl
    _ = ((goal - 1) % p.size + 1) % p.size := by rw [hbefore]
    _ = goal % p.size := by rw [Int.emod_add_emod, Int.sub_add_cancel]
    _ = ((goal % p.size).toNat : Nat) := (Int.toNat_of_nonneg (Int.emod_nonneg _ hsize)).symm

end Program

/-! ### The instructions -/

def Opcode.leap (op : Opcode) (x : Number) : Effect :=
  match op with
  | .jump => .jump (x.floor.sub .one).toInt
  | .call => .call (x.floor.sub .one).toInt
  | _ => .jumpBy x

theorem Opcode.pc_leap {δ : Type} [Device δ] {op : Opcode} {p : Program} {u : State δ} {x : Number}
    {q : ℚ} {goal : Int} (hpc : u.pc < twoPow 52) (hx : x.toRat? = some q)
    (h : ⌊q⌋.natAbs < twoPow 52) (hgoal : op.goal? u.pc ⌊q⌋ = some goal) :
    ((op.leap x).apply p u).pc = p.wrap (goal - 1) := by
  have habsolute := Number.toInt_floor_sub_one hx h
  have hrelative := Effect.relative_eq hpc hx h
  cases op with
  | jump | call =>
    obtain rfl := Option.some.inj hgoal
    rw [leap, habsolute]
    rfl
  | jumpBy =>
    obtain rfl := Option.some.inj hgoal
    have hleap : leap .jumpBy x = .jumpBy x := rfl
    rw [hleap, Effect.apply_jumpBy, hrelative]
    rfl
  | _ => cases hgoal

theorem Opcode.fault?_leap {δ : Type} {op : Opcode} {u : State δ} (x : Number)
    (hroom : op = .call → u.calls.isFull = false) : (op.leap x).fault? u = none := by
  cases op with
  | call => rw [leap, Effect.fault?, hroom rfl, if_neg Bool.false_ne_true]
  | _ => rfl

namespace State.Consistent

variable {δ : Type} [Device δ] {p : Program} {s : State δ} {c : Call} {v : Value}

theorem sources_of_operand? (h : s.Consistent p) (hv : s.operand? p c = some v) :
    (∃ t, (p.line s.pc).operands[0]? = some t ∧ t.kind.isSource = true) ∨
      (p.line s.pc).sources ≠ [] := by
  unfold operand? at hv
  split at hv
  · obtain ⟨t, ht, hvalue⟩ := Option.bind_eq_some_iff.1 hv
    exact .inl ⟨t, ht, isSource_of_value? hvalue⟩
  · rename_i hs
    obtain ⟨t, -, hsource⟩ := h.exists_input hs
    refine .inr fun hnil => ?_
    rw [hnil] at hsource
    cases hsource
  · cases hv

theorem isLabel_of_operand? {op : Opcode} (h : s.Consistent p) (hop : op = .jump ∨ op = .call)
    (hline : (p.line s.pc).head.kind = .opcode op) (hv : s.operand? p c = some v) :
    Operand.isLabel (p.line s.pc).operands[0]? = false := by
  rcases h.sources_of_operand? hv with ⟨t, ht, hsource⟩ | hne
  · rw [ht]
    obtain ⟨kind, name, line⟩ := t
    cases kind with
    | label => cases hsource
    | _ => rfl
  · cases hlabel : Operand.isLabel (p.line s.pc).operands[0]? with
    | false => rfl
    | true =>
      have hnil : (p.line s.pc).sources = [] := by
        rcases hop with rfl | rfl <;>
          simp only [Line.sources, hline, Opcode.sources, hlabel, if_true]
      exact absurd hnil hne

end State.Consistent

theorem Plan.target_of_not_isLabel {labels : Labels} {a : Option Token} {next : Int → Plan}
    (h : Operand.isLabel a = false) :
    target labels a next = readNumber a fun x => next (x.floor.sub .one).toInt := by
  cases a with
  | none => rfl
  | some t =>
    obtain ⟨kind, name, line⟩ := t
    cases kind with
    | label => cases h
    | _ => rfl

namespace State.Consistent

variable {δ : Type} [Device δ] {p : Program} {s : State δ} {c : Call} {v : Value}

theorem plan_of_jump {op : Opcode} {n goal : Int} (h : s.Consistent p)
    (hline : (p.line s.pc).head.kind = .opcode op) (hgoal : op.goal? s.pc n = some goal)
    (hv : s.operand? p c = some v) :
    s.plan p = .readNumber (p.line s.pc).operands[0]? (fun x => .done (op.leap x)) ∧
      (p.line s.pc).sources.length = 1 := by
  cases op with
  | jump =>
    have hlabel := h.isLabel_of_operand? (.inl rfl) hline hv
    simp only [plan, Line.plan, Line.sources, hline, Plan.ofOpcode, Opcode.sources, hlabel]
    exact ⟨Plan.target_of_not_isLabel hlabel, rfl⟩
  | call =>
    have hlabel := h.isLabel_of_operand? (.inr rfl) hline hv
    simp only [plan, Line.plan, Line.sources, hline, Plan.ofOpcode, Opcode.sources, hlabel]
    exact ⟨Plan.target_of_not_isLabel hlabel, rfl⟩
  | jumpBy =>
    simp only [plan, Line.plan, Line.sources, hline, Plan.ofOpcode, Opcode.sources]
    exact ⟨rfl, rfl⟩
  | _ => cases hgoal

theorem call_of_operand? {next : Value → Plan} (h : s.Consistent p)
    (hplan : s.plan p = .read (p.line s.pc).operands[0]? next)
    (hsources : (p.line s.pc).sources.length = 1) (hv : s.operand? p c = some v) :
    ∃ u : State δ, u.pc = s.pc ∧ u.calls = s.calls ∧
      s.call p c = ((next v).run p [] u).report p s.pc := by
  unfold operand? at hv
  split at hv
  · rename_i hs
    have hlog : s.log = [] := by simpa only [Consistent, hs] using h
    obtain ⟨t, ht, hvalue⟩ := Option.bind_eq_some_iff.1 hv
    have hconsumed := Consumed.consume hvalue
    refine ⟨(s.consume t.kind).record v, hconsumed.pc, hconsumed.calls, ?_⟩
    change s.step p = _
    rw [step_of_ready hs hlog, hplan, ht, Plan.run, read_of_value? hvalue]
  · rename_i w hs
    obtain rfl : w = v := Option.some.inj hv
    -- the instruction waits for its only source, so nothing has been read before
    obtain ⟨t, -, hsource⟩ := h.exists_input hs
    have hlt := (List.getElem?_eq_some_iff.1 hsource).1
    have hlog : s.log = [] := List.length_eq_zero_iff.1 (by omega)
    have hadmits : s.admits (.enter w) = true := by rw [admits, hs]; rfl
    refine ⟨s.takenUp (.enter w), rfl, rfl, ?_⟩
    have htaken : (s.takenUp (.enter w)).log = [w] := by
      change s.log ++ [w] = [w]
      rw [hlog]
      rfl
    have hsame : (s.takenUp (.enter w)).plan p = s.plan p := rfl
    rw [call_of_admits hadmits, dispatch_eq_report, htaken, hsame, hplan, Plan.run]
    rfl
  · cases hv

end State.Consistent

namespace State.Jumps

variable {δ : Type} [Device δ] {p q : Program} {s u : State δ} {c d : Call} {op op' : Opcode}
  {n m goal goal' : Int}

theorem call_eq (h : s.Jumps p c op n) (hp : p.size < twoPow 52)
    (hgoal : op.goal? s.pc n = some goal) :
    (s.call p c).1 = .ok .stepped ∧
      (s.call p c).2.pc = p.following (p.wrap (goal - 1)) := by
  obtain ⟨v, x, r, hv, hx, hr, rfl⟩ := exists_of_operandFloor? h.operand
  have hpc : s.pc < twoPow 52 :=
    Nat.lt_trans (Program.isExecutable_of_opcode h.opcode).1 hp
  obtain ⟨hplan, hsources⟩ := h.reachable.consistent.plan_of_jump h.opcode hgoal hv
  obtain ⟨u, hupc, hucalls, hcall⟩ := h.reachable.consistent.call_of_operand? hplan hsources hv
  have hnumber : v.toNumber = .ok x := by rw [Value.toNumber, hx]
  have hroom := op.fault?_leap (u := u) x (fun hop => hucalls ▸ h.room hop)
  have hcompleted : s.call p c = (Ending.completed ((op.leap x).apply p u)).report p s.pc := by
    rw [hcall, hnumber]
    simp only [Plan.run_done, hroom]
  rw [← hupc] at hpc hgoal
  have hleap := Opcode.pc_leap (p := p) hpc hr h.range hgoal
  rw [hcompleted]
  exact ⟨rfl, congrArg p.following hleap⟩

theorem reaches (h : s.Jumps p c op n) (hp : p.size < twoPow 52)
    (hgoal : op.goal? s.pc n = some goal) :
    p.Reaches (goal % p.size).toNat (s.call p c).2.pc := by
  obtain ⟨hlt, hexec⟩ := Program.isExecutable_of_opcode h.opcode
  rw [(h.call_eq hp hgoal).2, ← Program.nextIndex_wrap_sub_one (Nat.zero_lt_of_lt hlt)]
  exact Program.following_reaches hexec _

/-- Where a jump lands depends on its goal alone, and on that only up to laps. -/
theorem pc_eq (h : s.Jumps p c op n) (h' : u.Jumps q d op' m) (hp : p.size < twoPow 52)
    (hlayout : p.SameLayout q) (hgoal : op.goal? s.pc n = some goal)
    (hgoal' : op'.goal? u.pc m = some goal') (hlaps : goal' % p.size = goal % p.size) :
    (u.call q d).2.pc = (s.call p c).2.pc := by
  have hwrap : p.wrap (goal' - 1) = p.wrap (goal - 1) := by
    rw [Program.wrap, Program.wrap, Int.sub_emod, hlaps, ← Int.sub_emod]
  rw [(h.call_eq hp hgoal).2, (h'.call_eq (hlayout.size ▸ hp) hgoal').2, hlayout.following_eq,
    hlayout.wrap_eq, hwrap]

end State.Jumps

/-- In a program of less than `2 ^ 52` lines, a jump, a call with room on the call stack and a
relative jump complete for every operand whose number has a floor below `2 ^ 52`, and go on with the
first line that is not inert, from their goal on, counted round the program: the floor itself, or
the floor counted from the line of the jump. So a relative jump by zero stays on its line, a jump to
a line and a relative jump by the difference go on at the same line, and so do two jumps whose
operands differ by laps; the two may stand in programs that differ in everything but their inert
lines. -/
theorem numeric_jump_landing {δ : Type} [Device δ] {p : Program} (hp : p.size < twoPow 52)
    {s : State δ} {c : Call} {op : Opcode} {n goal : Int} (h : s.Jumps p c op n)
    (hgoal : op.goal? s.pc n = some goal) :
    (s.call p c).1 = .ok .stepped ∧
    p.Reaches (goal % p.size).toNat (s.call p c).2.pc ∧
    (op = .jumpBy → n = 0 → (s.call p c).2.pc = s.pc) ∧
    ∀ (q : Program) (u : State δ) (d : Call), p.SameLayout q →
      (op = .jump ∨ op = .call → u.Jumps q d .jumpBy (n - u.pc) →
        (u.call q d).2.pc = (s.call p c).2.pc) ∧
      ∀ k : Int, u.pc = s.pc → u.Jumps q d op (n + k * p.size) →
        (u.call q d).2.pc = (s.call p c).2.pc := by
  refine ⟨(h.call_eq hp hgoal).1, h.reaches hp hgoal, ?_, ?_⟩
  · rintro rfl rfl
    obtain rfl := Option.some.inj hgoal
    have hlt := (Program.isExecutable_of_opcode h.opcode).1
    have hown : (((s.pc : Int) + 0) % p.size).toNat = s.pc := Program.wrap_natCast hlt
    have hreaches := h.reaches hp hgoal
    rw [hown] at hreaches
    have hexec : (p.line s.pc).isInert = false := by
      simp only [Line.isInert, Token.isInert, h.opcode]
    exact hreaches.unique (.here hexec)
  · intro q u d hlayout
    refine ⟨?_, ?_⟩
    · intro hop h'
      have hn : op.goal? s.pc n = some n := by rcases hop with rfl | rfl <;> rfl
      have hdifference : Opcode.goal? .jumpBy u.pc (n - u.pc) = some n := by
        rw [Opcode.goal?, add_sub_cancel]
      exact h.pc_eq h' hp hlayout hn hdifference rfl
    · intro k hpc h'
      have hmore : op.goal? u.pc (n + k * p.size) = some (goal + k * p.size) := by
        rw [hpc]
        cases op with
        | jump | call | jumpBy =>
          obtain rfl := Option.some.inj hgoal
          simp only [Opcode.goal?, Int.add_assoc]
        | _ => cases hgoal
      exact h.pc_eq h' hp hlayout hgoal hmore (Int.add_mul_emod_self_right goal k p.size)

/-- Four lines up from the first of three lines, and two lines down: two laps lie between. -/
theorem numeric_jump_landing_two_laps :
    let p := (Program.load "jrl -3.5\n\nmov 1 r0").toOption.getD default
    let q := (Program.load "jrl 2.5\n\nmov 1 r0").toOption.getD default
    let s := State.initial 0 (Tape.ofList [])
    s.Jumps p .step .jumpBy (-4) ∧ s.Jumps q .step .jumpBy 2 ∧ p.SameLayout q ∧
      (s.call p .step).1 = .ok .stepped ∧ p.Reaches 2 (s.call p .step).2.pc ∧
      (s.call q .step).2.pc = (s.call p .step).2.pc := by
  intro p q s
  have hup : s.Jumps p .step .jumpBy (-4) :=
    ⟨.boot (.ofSeed 0) _, by decide +kernel, by decide +kernel, by decide +kernel, by decide⟩
  have hdown : s.Jumps q .step .jumpBy 2 :=
    ⟨.boot (.ofSeed 0) _, by decide +kernel, by decide +kernel, by decide +kernel, by decide⟩
  have hlayout : p.SameLayout q := ⟨by decide +kernel, by decide +kernel⟩
  have hsize : p.size = 3 := by decide +kernel
  have hless : p.size < twoPow 52 := by decide +kernel
  obtain ⟨hdone, hreaches, -, hsame⟩ := numeric_jump_landing hless hup rfl
  rw [hsize] at hreaches hsame
  exact ⟨hup, hdown, hlayout, hdone, hreaches, (hsame q s .step hlayout).2 2 rfl hdown⟩

end LineAsm
