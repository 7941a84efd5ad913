import LineAsm.Proofs.Control
import LineAsm.Proofs.Loading
import Mathlib.Control.Monad.Basic

set_option autoImplicit false

/-!
# A machine that checks its accesses

The machine of the library is total: a line outside the program is an empty one, a remainder by zero
is the number itself, a difference stops at zero, and a write outside an array is dropped. The
checked machine has no answer in those cases. On a program that was read from a source it always has
one, and the same as the machine of the library: none of those cases ever occurs.
-/

namespace LineAsm

namespace Checked

def remainder (a b : Nat) : Option Nat := if b = 0 then none else some (a % b)

def difference (a b : Nat) : Option Nat := if a < b then none else some (a - b)

def write {α : Type} (xs : Array α) (i : Nat) (a : α) : Option (Array α) :=
  if i < xs.size then some (xs.setIfInBounds i a) else none

def head (l : Line) : Option Token := l.tokens[0]?

def isInert (p : Program) (i : Nat) : Option Bool := do
  let l ← p.lines[i]?
  let t ← head l
  return t.isInert

def nextIndex (p : Program) (i : Nat) : Option Nat := remainder (i + 1) p.size

/-- A line is looked at even when the count is used up. -/
def passInert (p : Program) : Nat → Nat → Option Nat
  | 0, i => (isInert p i).map fun _ => i
  | n + 1, i => do
    if ← isInert p i then
      let j ← nextIndex p i
      passInert p n j
    else
      return i

def following (p : Program) (i : Nat) : Option Nat := do
  let j ← nextIndex p i
  passInert p p.size j

def wrap (p : Program) (position : Int) : Option Nat := remainder (p.wrap position) p.size

def slice (s : String) (start stop : Number) : Option String :=
  let cs := s.toList
  let start := Text.position cs.length start
  let stop := Text.position cs.length stop
  if stop ≤ start then some ""
  else (difference stop start).map fun n => .ofList ((cs.drop start).take n)

def getRegister (rs : Registers) (r : Register) : Option Value := rs.cells[r.index.val]?

def setRegister (rs : Registers) (r : Register) (v : Value) : Option Registers :=
  if r.index.val < rs.cells.toArray.size then some (rs.set r v) else none

/-- Cells are added only if the pointer lies behind them. -/
def put (m : Memory) (v : Value) : Option Memory := do
  let cells := if m.cells.size ≤ m.address then Memory.extend m.cells (m.address + 1) else m.cells
  let cells ← write cells m.address v
  return { m with cells }

variable {δ : Type} [Device δ]

def read (s : State δ) (operand : Option Token) : Option (Reading δ) :=
  match operand with
  | some ⟨.register r, _, _⟩ => (getRegister s.registers r).map fun v => .value v s
  | operand => some (s.read operand)

def apply (p : Program) (s : State δ) (e : Effect) : Option (State δ) :=
  match e with
  | .setRegister r v => (setRegister s.registers r v).map fun rs => { s with registers := rs }
  | .slice start stop => do
    let v ← getRegister s.registers .acc
    let text ← slice v.display start stop
    let rs ← setRegister s.registers .acc (.text text)
    return { s with registers := rs }
  | .skipUnless test =>
    if test then some s else (nextIndex p s.pc).map fun pc => { s with pc }
  | .jump position => (wrap p position).map fun pc => { s with pc }
  | .jumpBy offset => (wrap p (Effect.relative s.pc offset)).map fun pc => { s with pc }
  | .call position => (wrap p position).map fun pc => { s with calls := s.calls.add s.pc, pc }
  | .store v => (put s.memory v).map fun m => { s with memory := m }
  | e => some (e.apply p s)

def plan (p : Program) (i : Nat) : Option Plan := do
  let l ← p.lines[i]?
  let t ← head l
  return Line.plan p.labels ⟨t, l.operands⟩

def run (p : Program) (replay : List Value) (s : State δ) : Plan → Option (Ending δ)
  | .done e =>
    match e.fault? s with
    | none => (apply p s e).map .completed
    | some f => some (.failed f s)
  | .fail f => some (.failed f s)
  | .read operand next =>
    match replay with
    | v :: vs => run p vs s (next v)
    | [] =>
      match read s operand with
      | none => none
      | some (.value v s) => run p [] (s.record v) (next v)
      | some (.suspended s) => some (.suspended s)
      | some (.failed f s) => some (.failed f s)

def dispatch (p : Program) (s : State δ) : Option (Except Diagnostic Event × State δ) := do
  let q ← plan p s.pc
  match ← run p s.log s q with
  | .completed u =>
    let pc ← following p u.pc
    return (.ok .stepped, { u.settle with pc })
  | .suspended u => return (.ok .input, u)
  | .failed f u => return (.error (f.inLine s.pc), u.settle)

def call (p : Program) (s : State δ) (c : Call) : Option (Except Diagnostic Event × State δ) :=
  match c, s.status with
  | .step, .ready => dispatch p s
  | .step, .waiting => some (.ok .waiting, s)
  | .enter _, .ready => some (.error (Fault.noPendingInput.inLine s.pc), s)
  | .enter v, .waiting => dispatch p ({ s with status := .ready }.record v)

def serve (p : Program) (s : State δ) (r : Request δ) :
    Option (Option (Except Diagnostic Event) × State δ) :=
  match r with
  | .call c => (call p s c).map fun a => (some a.1, a.2)
  | .reseed seed => some (none, s.reseed seed)
  | .attach device => some (none, { s with device })

/-- The exchanges of a sequence of requests, and the state in the end. -/
def exchanges (p : Program) (s : State δ) :
    List (Request δ) → Option (List (Exchange (State δ) δ) × State δ)
  | [] => some ([], s)
  | r :: rs => do
    let (a, u) ← serve p s r
    let (xs, w) ← exchanges p u rs
    return (⟨s, r, a, u⟩ :: xs, w)

/-! ### The checked operations have results -/

theorem remainder_eq (a : Nat) {b : Nat} (h : 0 < b) : remainder a b = some (a % b) := by
  rw [remainder, if_neg (by omega)]

theorem getElem?_lines {p : Program} {i : Nat} (h : i < p.size) :
    p.lines[i]? = some (p.line i) := by
  rw [Program.line, Program.line?, Array.getElem?_eq_getElem h]
  rfl

theorem isInert_eq {p : Program} {i : Nat} (h : i < p.size) :
    isInert p i = some (p.line i).isInert := by
  rw [isInert, getElem?_lines h]
  rfl

theorem nextIndex_eq {p : Program} (h : 0 < p.size) (i : Nat) :
    nextIndex p i = some (p.nextIndex i) := remainder_eq (i + 1) h

theorem passInert_eq {p : Program} (n : Nat) {i : Nat} (h : i < p.size) :
    passInert p n i = some (p.passInert n i) := by
  have hp : 0 < p.size := by omega
  induction n generalizing i with
  | zero =>
    rw [passInert, isInert_eq h]
    rfl
  | succ n ih =>
    simp only [passInert, isInert_eq h, nextIndex_eq hp, Program.passInert, Option.bind_eq_bind,
      Option.bind_some]
    cases (p.line i).isInert with
    | true => exact ih (Program.nextIndex_lt hp i)
    | false => rfl

theorem following_eq {p : Program} (h : 0 < p.size) (i : Nat) :
    following p i = some (p.following i) := by
  rw [following, nextIndex_eq h]
  exact passInert_eq p.size (Program.nextIndex_lt h i)

theorem wrap_eq {p : Program} (h : 0 < p.size) (position : Int) :
    wrap p position = some (p.wrap position) := by
  rw [wrap, remainder_eq _ h, Nat.mod_eq_of_lt (Program.wrap_lt h position)]

theorem slice_eq (s : String) (start stop : Number) :
    slice s start stop = some (Text.slice s start stop) := by
  unfold slice Text.slice
  dsimp only
  split
  · rename_i hle
    rw [Nat.sub_eq_zero_of_le hle, List.take_zero]
  · rename_i hlt
    rw [difference, if_neg (by omega)]
    rfl

theorem getRegister_eq (rs : Registers) (r : Register) : getRegister rs r = some (rs.get r) :=
  Vector.getElem?_eq_getElem r.index.isLt

theorem setRegister_eq (rs : Registers) (r : Register) (v : Value) :
    setRegister rs r v = some (rs.set r v) := by
  have h : r.index.val < rs.cells.toArray.size := by
    rw [Vector.size_toArray]
    exact r.index.isLt
  rw [setRegister, if_pos h]

theorem put_eq (m : Memory) (v : Value) : put m v = some (m.put v) := by
  have hcells : (if m.cells.size ≤ m.address then Memory.extend m.cells (m.address + 1)
      else m.cells) = Memory.extend m.cells (m.address + 1) := by
    split
    · rfl
    · rename_i hlt
      rw [Memory.extend, Nat.sub_eq_zero_of_le (by omega), Array.replicate_zero,
        Array.append_empty]
  have hlt : m.address < (Memory.extend m.cells (m.address + 1)).size := by
    rw [Memory.size_extend]
    omega
  rw [put, hcells, write, if_pos hlt]
  rfl

theorem read_eq (s : State δ) (operand : Option Token) :
    read s operand = some (s.read operand) := by
  unfold read
  split
  · rw [getRegister_eq]
    rfl
  · rfl

theorem apply_eq {p : Program} (h : 0 < p.size) (s : State δ) (e : Effect) :
    apply p s e = some (e.apply p s) := by
  cases e with
  | setRegister r v => rw [apply, setRegister_eq]; rfl
  | slice start stop =>
    simp only [apply, getRegister_eq, Option.bind_eq_bind, Option.bind_some, slice_eq,
      setRegister_eq]
    rfl
  | skipUnless test =>
    rw [apply, nextIndex_eq h]
    cases test <;> rfl
  | jump position => rw [apply, wrap_eq h]; rfl
  | jumpBy offset =>
    rw [apply, wrap_eq h, Effect.apply_jumpBy]
    generalize Effect.relative s.pc offset = position
    rfl
  | call position => rw [apply, wrap_eq h]; rfl
  | store v => rw [apply, put_eq]; rfl
  | _ => rfl

theorem plan_eq {p : Program} {i : Nat} (h : i < p.size) :
    plan p i = some ((p.line i).plan p.labels) := by
  rw [plan, getElem?_lines h]
  rfl

theorem run_eq {p : Program} (h : 0 < p.size) (q : Plan) (replay : List Value) (s : State δ) :
    run p replay s q = some (q.run p replay s) := by
  induction q generalizing replay s with
  | done e =>
    rw [run, Plan.run_done]
    cases e.fault? s with
    | none => rw [apply_eq h]; rfl
    | some f => rfl
  | fail f => rfl
  | read operand next ih =>
    unfold run Plan.run
    cases replay with
    | cons v vs => exact ih v vs s
    | nil =>
      rw [read_eq]
      cases s.read operand with
      | value v u => exact ih v [] (u.record v)
      | suspended u => rfl
      | failed f u => rfl

theorem dispatch_eq {p : Program} {s : State δ} (h : s.pc < p.size) :
    dispatch p s = some (s.dispatch p) := by
  have hp : 0 < p.size := by omega
  simp only [dispatch, plan_eq h, run_eq hp, following_eq hp, State.dispatch, Option.bind_eq_bind,
    Option.bind_some]
  cases ((p.line s.pc).plan p.labels).run p s.log s <;> rfl

theorem serve_eq {p : Program} {s : State δ} (h : s.pc < p.size) (r : Request δ) :
    serve p s r = some (s.serve p r) := by
  cases r with
  | reseed seed => rfl
  | attach device => rfl
  | call c =>
    have hcall : call p s c = some (s.call p c) := by
      unfold call
      cases c with
      | step =>
        unfold State.call State.step
        cases s.status with
        | ready => exact dispatch_eq h
        | waiting => rfl
      | enter v =>
        unfold State.call State.enter
        cases s.status with
        | ready => rfl
        | waiting => exact dispatch_eq h
    rw [serve, hcall]
    rfl

theorem exchanges_eq {p : Program} {s : State δ} (h : Reachable p s) (hp : 0 < p.size)
    (rs : List (Request δ)) :
    exchanges p s rs =
      some (LineAsm.exchanges (State.serve p) s rs, served (State.serve p) s rs) := by
  induction rs generalizing s with
  | nil => rfl
  | cons r rs ih =>
    simp only [exchanges, serve_eq (h.pc_lt hp), Option.bind_eq_bind, Option.bind_some,
      ih (h.serve r)]
    rfl

end Checked

variable {δ : Type} [Device δ]

/-- On a program that was read from a source, whatever is asked of the machine: the program counter,
the lines on the call stack and the lines of labels lie inside the program, and the checked machine
goes through the same exchanges to the same state. -/
theorem checked_run_eq_run {source : String} {p : Program} (h : Program.load source = .ok p)
    (generator : Generator) (device : δ) (rs : List (Request δ)) :
    let s := served (State.serve p) (.boot generator device) rs
    0 < p.size ∧ (∀ l ∈ p.lines, l.tokens ≠ []) ∧ (∀ e ∈ p.labels.entries, e.2 < p.size) ∧
      s.pc < p.size ∧ (∀ i ∈ s.calls.items, i < p.size) ∧
      Checked.exchanges p (.boot generator device) rs =
        some (exchanges (State.serve p) (.boot generator device) rs, s) := by
  intro s
  have hp : 0 < p.size := Program.size_pos_of_load h
  have hstart : Reachable p (.boot generator device) := .boot generator device
  have hs : s.InBounds p := (hstart.served rs).inBounds hp
  exact ⟨hp, fun l _ => List.cons_ne_nil _ _, fun e he => Program.lt_of_mem_labels h he, hs.pc,
    hs.calls, Checked.exchanges_eq hstart hp rs⟩

/-- A jump far outside the program, to a line that cuts a text with its ends the wrong way round. -/
theorem checked_run_eq_run_after_far_jump :
    let p := (Program.load "jump in\nslc 5 2").toOption.getD default
    let start := State.initial 0 (Tape.ofList [])
    let rs := [.call .step, .call (.enter (.text "-1e300")), .call .step]
    let s := served (State.serve p) start rs
    Program.load "jump in\nslc 5 2" = .ok p ∧ s.pc < p.size ∧
      Checked.exchanges p start rs = some (exchanges (State.serve p) start rs, s) := by
  intro p start rs s
  have hp : Program.load "jump in\nslc 5 2" = .ok p := by decide +kernel
  have h := checked_run_eq_run hp (.ofSeed 0) (Tape.ofList []) rs
  exact ⟨hp, h.2.2.2.1, h.2.2.2.2.2⟩

end LineAsm
