import LineAsm.Machine.Step

set_option autoImplicit false

/-!
# What an execution reads

Executing a plan reads operands from their sources until an effect, a fault or an operand without
a value is left. `Plan.readings` lists what was read, `Plan.Leads` is the way through the plan, and
`Plan.exists_ends` is the one case analysis of an execution that the other modules build on. An
execution that replays a log is the execution of the residue of its plan, so nothing else has to be
said about resumed instructions.
-/

namespace LineAsm

/-- The kinds of operands that an instruction can read. -/
def TokenKind.isSource : TokenKind → Bool
  | .register _ => true
  | .pop => true
  | .top => true
  | .memory => true
  | .address => true
  | .input => true
  | .random => true
  | .string => true
  | .number => true
  | _ => false

namespace State

variable {δ : Type} [Device δ]

def value? (s : State δ) (t : Token) : Option Value :=
  match t.kind with
  | .input => (Device.request s.device).1
  | .random => some (.number s.generator.value)
  | .register r => some (s.registers.get r)
  | .pop => s.memory.stack.top?
  | .top => s.memory.stack.top?
  | .memory => some s.memory.fetch
  | .address => some (.number (.ofNat s.memory.address))
  | .string => some (.text t.text)
  | .number => (Number.ofText? t.text.toList).map .number
  | _ => none

/-- The state after an operand of the given kind has yielded its value. -/
def consume (s : State δ) (k : TokenKind) : State δ :=
  match k with
  | .pop => { s with memory := s.memory.mapStack .drop }
  | .random => { s with generator := s.generator.advance }
  | .input => { s with device := (Device.request s.device).2 }
  | _ => s

/-- Why an operand that is no input has no value. -/
def sourceFault (s : State δ) (operand : Option Token) : Fault :=
  match operand with
  | none => .missingSource
  | some t =>
    match t.kind with
    | .pop => .emptyStack s.memory.stack.name
    | .top => .emptyStack s.memory.stack.name
    | .number => .notANumber t.text
    | _ => .invalidSource t.render

theorem isSource_of_value? {s : State δ} {t : Token} {v : Value} (h : s.value? t = some v) :
    t.kind.isSource = true := by
  unfold value? at h
  split at h <;> simp_all [TokenKind.isSource]

theorem readInput_of_some {s : State δ} {v : Value} (h : (Device.request s.device).1 = some v) :
    s.readInput = .value v (s.consume .input) := by
  have hr : Device.request s.device = (some v, (Device.request s.device).2) := Prod.ext h rfl
  unfold readInput consume
  rw [hr]

theorem readInput_of_none {s : State δ} (h : (Device.request s.device).1 = none) :
    s.readInput = .suspended { s.consume .input with status := .waiting } := by
  have hr : Device.request s.device = (none, (Device.request s.device).2) := Prod.ext h rfl
  unfold readInput consume
  rw [hr]

theorem read_of_value? {s : State δ} {t : Token} {v : Value} (h : s.value? t = some v) :
    s.read (some t) = .value v (s.consume t.kind) := by
  obtain ⟨kind, text, line⟩ := t
  cases kind with
  | input => exact readInput_of_some h
  | pop =>
    simp only [read, readPop, Stack.pop_of_top?_eq_some h, consume, Memory.mapStack]
  | top => simp only [read, readTop, Stack.top_of_top?_eq_some h, consume]
  | number =>
    obtain ⟨n, hn, rfl⟩ := Option.map_eq_some_iff.1 h
    simp only [read, hn, consume]
  | random | register | memory | address | string =>
    cases h
    rfl
  | _ => cases h

theorem read_of_value?_eq_none {s : State δ} {operand : Option Token}
    (ht : ∀ t, operand = some t → t.kind ≠ .input) (h : operand.bind s.value? = none) :
    s.read operand = .failed (s.sourceFault operand) s := by
  cases operand with
  | none => rfl
  | some t =>
    obtain ⟨kind, text, line⟩ := t
    cases kind with
    | input => exact absurd rfl (ht _ rfl)
    | pop => simp only [read, readPop, Stack.pop_of_top?_eq_none h, sourceFault]
    | top => simp only [read, readTop, Stack.top_of_top?_eq_none h, sourceFault]
    | number =>
      have hn : Number.ofText? text.toList = none := Option.map_eq_none_iff.1 h
      simp only [read, hn, sourceFault]
    | random | register | memory | address | string => cases h
    | _ => rfl

theorem read_input_of_none {s : State δ} {t : Token} (ht : t.kind = .input)
    (h : s.value? t = none) :
    s.read (some t) = .suspended { s.consume .input with status := .waiting } := by
  have hr : s.read (some t) = s.readInput := by simp only [read, ht]
  have hd : (Device.request s.device).1 = none := by simpa only [value?, ht] using h
  rw [hr, readInput_of_none hd]

theorem read_of_none {s : State δ} {t : Token} (ht : t.kind ≠ .input) (h : s.value? t = none) :
    s.read (some t) = .failed (s.sourceFault (some t)) s :=
  read_of_value?_eq_none (fun _ hu => Option.some.inj hu ▸ ht) h

def afterReadings (s : State δ) (rs : List (Token × Value)) : State δ :=
  rs.foldl (fun u r => (u.consume r.1.kind).record r.2) s

theorem consume_log (s : State δ) (k : TokenKind) : (s.consume k).log = s.log := by
  cases k <;> rfl

theorem consume_status (s : State δ) (k : TokenKind) : (s.consume k).status = s.status := by
  cases k <;> rfl

theorem afterReadings_log (s : State δ) (rs : List (Token × Value)) :
    (s.afterReadings rs).log = s.log ++ rs.map Prod.snd := by
  induction rs generalizing s with
  | nil => exact (List.append_nil _).symm
  | cons r rs ih =>
    change (((s.consume r.1.kind).record r.2).afterReadings rs).log = _
    rw [ih, record, consume_log, List.append_assoc]
    rfl

theorem afterReadings_status (s : State δ) (rs : List (Token × Value)) :
    (s.afterReadings rs).status = s.status := by
  induction rs generalizing s with
  | nil => rfl
  | cons r rs ih =>
    change (((s.consume r.1.kind).record r.2).afterReadings rs).status = _
    rw [ih, record, consume_status]

end State

namespace Plan

/-- What is left of a plan once its first operands have the given values. -/
def residue : Plan → List Value → Plan
  | .done e, _ => .done e
  | .fail f, _ => .fail f
  | .read operand next, [] => .read operand next
  | .read _ next, v :: vs => (next v).residue vs

theorem residue_nil (q : Plan) : q.residue [] = q := by
  cases q <;> rfl

theorem residue_append (q : Plan) (vs ws : List Value) :
    q.residue (vs ++ ws) = (q.residue vs).residue ws := by
  induction q generalizing vs with
  | done e => rfl
  | fail f => rfl
  | read operand next ih =>
    cases vs with
    | nil => rfl
    | cons v vs => exact ih v vs

theorem run_eq_run_residue {δ : Type} [Device δ] (p : Program) (q : Plan) (vs : List Value)
    (s : State δ) : q.run p vs s = (q.residue vs).run p [] s := by
  induction q generalizing vs with
  | done e => rfl
  | fail f => rfl
  | read operand next ih =>
    cases vs with
    | nil => rfl
    | cons v vs => exact ih v vs

/-- A plan comes to another one by reading the given operands with the given values. -/
inductive Leads : Plan → List (Token × Value) → Plan → Prop where
  | refl (q : Plan) : Leads q [] q
  | read {t : Token} {v : Value} {next : Value → Plan} {rs : List (Token × Value)} {r : Plan}
      (ht : t.kind.isSource = true) (tail : Leads (next v) rs r) :
      Leads (.read (some t) next) ((t, v) :: rs) r

theorem Leads.trans {q r w : Plan} {rs us : List (Token × Value)} (h : q.Leads rs r)
    (h' : r.Leads us w) : q.Leads (rs ++ us) w := by
  induction h with
  | refl q => exact h'
  | read ht _ ih => exact .read ht (ih h')

theorem Leads.residue_eq {q r : Plan} {rs : List (Token × Value)} (h : q.Leads rs r) :
    q.residue (rs.map Prod.snd) = r := by
  induction h with
  | refl q => exact residue_nil q
  | read _ _ ih => exact ih

theorem Leads.isSource {q r : Plan} {rs : List (Token × Value)} (h : q.Leads rs r) :
    ∀ x ∈ rs, x.1.kind.isSource = true := by
  induction h with
  | refl q => simp
  | read ht _ ih =>
    intro x hx
    rcases List.mem_cons.1 hx with rfl | hx
    · exact ht
    · exact ih x hx

theorem Leads.of_done {e : Effect} {r : Plan} {rs : List (Token × Value)}
    (h : (Plan.done e).Leads rs r) : rs = [] ∧ r = .done e := by
  cases h
  exact ⟨rfl, rfl⟩

theorem Leads.of_read {operand : Option Token} {next : Value → Plan} {e : Effect}
    {rs : List (Token × Value)} (h : (Plan.read operand next).Leads rs (.done e)) :
    ∃ t v us, operand = some t ∧ rs = (t, v) :: us ∧ (next v).Leads us (.done e) := by
  cases h with
  | read _ tail => exact ⟨_, _, _, rfl, rfl, tail⟩

theorem Leads.of_readNumber {operand : Option Token} {next : Number → Plan} {e : Effect}
    {rs : List (Token × Value)} (h : (readNumber operand next).Leads rs (.done e)) :
    ∃ t v n us, operand = some t ∧ rs = (t, v) :: us ∧ v.number? = some n ∧
      (next n).Leads us (.done e) := by
  obtain ⟨t, v, us, ht, hrs, htail⟩ := h.of_read
  unfold Value.toNumber at htail
  cases hn : v.number? with
  | none =>
    rw [hn] at htail
    cases htail
  | some n =>
    rw [hn] at htail
    exact ⟨t, v, n, us, ht, hrs, hn, htail⟩

variable {δ : Type} [Device δ]

def readings (s : State δ) : Plan → List (Token × Value)
  | .done _ => []
  | .fail _ => []
  | .read none _ => []
  | .read (some t) next =>
    match s.value? t with
    | some v => (t, v) :: (next v).readings ((s.consume t.kind).record v)
    | none => []

/-- How an execution ends in state `s` when no further operand of the plan has a value. -/
inductive Ends (p : Program) (s : State δ) : Plan → Ending δ → Prop where
  | completed {e : Effect} (h : e.fault? s = none) : Ends p s (.done e) (.completed (e.apply p s))
  | refused {e : Effect} {f : Fault} (h : e.fault? s = some f) : Ends p s (.done e) (.failed f s)
  | failed (f : Fault) : Ends p s (.fail f) (.failed f s)
  | suspended {t : Token} {next : Value → Plan} (ht : t.kind = .input)
      (h : s.value? t = none) :
      Ends p s (.read (some t) next) (.suspended { s.consume .input with status := .waiting })
  | unreadable {operand : Option Token} {next : Value → Plan}
      (ht : ∀ t, operand = some t → t.kind ≠ .input) (h : operand.bind s.value? = none) :
      Ends p s (.read operand next) (.failed (s.sourceFault operand) s)

/-- An execution reads operands as far as they have values, and ends with what is left. -/
theorem exists_ends (p : Program) (q : Plan) (s : State δ) :
    ∃ r, q.Leads (q.readings s) r ∧ r.Ends p (s.afterReadings (q.readings s)) (q.run p [] s) := by
  induction q generalizing s with
  | done e =>
    refine ⟨.done e, .refl _, ?_⟩
    rw [run_done]
    cases h : e.fault? s with
    | none => exact .completed h
    | some f => exact .refused h
  | fail f => exact ⟨.fail f, .refl _, .failed f⟩
  | read operand next ih =>
    cases operand with
    | none => exact ⟨.read none next, .refl _, .unreadable (fun _ h => nomatch h) rfl⟩
    | some t =>
      unfold run readings
      cases hv : s.value? t with
      | some v =>
        rw [State.read_of_value? hv]
        obtain ⟨r, hl, he⟩ := ih v ((s.consume t.kind).record v)
        exact ⟨r, .read (State.isSource_of_value? hv) hl, he⟩
      | none =>
        refine ⟨.read (some t) next, .refl _, ?_⟩
        by_cases ht : t.kind = .input
        · have hr : s.read (some t) = s.readInput := by simp only [State.read, ht]
          have hd : (Device.request s.device).1 = none := by simpa only [State.value?, ht] using hv
          rw [hr, State.readInput_of_none hd]
          exact .suspended ht hv
        · have hne : ∀ u, some t = some u → u.kind ≠ .input := fun u hu => Option.some.inj hu ▸ ht
          rw [State.read_of_value?_eq_none hne hv]
          exact .unreadable hne hv

end Plan

def countKind (k : TokenKind) (rs : List (Token × Value)) : Nat :=
  rs.countP fun r => r.1.kind = k

theorem countKind_cons (k : TokenKind) (r : Token × Value) (rs : List (Token × Value)) :
    countKind k (r :: rs) = (if r.1.kind = k then 1 else 0) + countKind k rs := by
  simp only [countKind, List.countP_cons, decide_eq_true_eq, Nat.add_comm]

def Device.requested {δ : Type} [Device δ] : Nat → δ → δ
  | 0, d => d
  | n + 1, d => Device.requested n (Device.request d).2

/-- From `s` to `u` some sources were consumed and nothing else happened, the progress of the
instruction apart: entries came off the value stack, numbers were drawn, the device was asked. -/
structure Consumed {δ : Type} [Device δ] (pops draws requests : Nat) (s u : State δ) : Prop where
  pc : u.pc = s.pc
  calls : u.calls = s.calls
  registers : u.registers = s.registers
  cells : u.memory.cells = s.memory.cells
  address : u.memory.address = s.memory.address
  stackName : u.memory.stack.name = s.memory.stack.name
  stack : ∃ taken : Array Value,
    s.memory.stack.items = u.memory.stack.items ++ taken ∧ taken.size = pops
  key : u.generator.key = s.generator.key
  drawn : u.generator.drawn = s.generator.drawn + draws
  device : u.device = Device.requested requests s.device

namespace Consumed

variable {δ : Type} [Device δ]

theorem refl (s : State δ) : Consumed 0 0 0 s s :=
  ⟨rfl, rfl, rfl, rfl, rfl, rfl, ⟨#[], by simp⟩, rfl, rfl, rfl⟩

theorem requested_add (m n : Nat) (d : δ) :
    Device.requested (m + n) d = Device.requested n (Device.requested m d) := by
  induction m generalizing d with
  | zero => rw [Nat.zero_add]; rfl
  | succ m ih =>
    rw [Nat.succ_add]
    exact ih (Device.request d).2

theorem trans {a b c a' b' c' : Nat} {s u w : State δ} (h : Consumed a b c s u)
    (h' : Consumed a' b' c' u w) : Consumed (a + a') (b + b') (c + c') s w := by
  obtain ⟨x, hx, hxs⟩ := h.stack
  obtain ⟨y, hy, hys⟩ := h'.stack
  refine ⟨h'.pc.trans h.pc, h'.calls.trans h.calls, h'.registers.trans h.registers,
    h'.cells.trans h.cells, h'.address.trans h.address, h'.stackName.trans h.stackName,
    ⟨y ++ x, ?_, ?_⟩, h'.key.trans h.key, ?_, ?_⟩
  · rw [hx, hy, Array.append_assoc]
  · rw [Array.size_append, hxs, hys, Nat.add_comm]
  · rw [h'.drawn, h.drawn, Nat.add_assoc]
  · rw [h'.device, h.device, requested_add]

theorem consume {s : State δ} {t : Token} {v : Value} (h : s.value? t = some v) :
    Consumed (if t.kind = .pop then 1 else 0) (if t.kind = .random then 1 else 0)
      (if t.kind = .input then 1 else 0) s (s.consume t.kind) := by
  obtain ⟨kind, text, line⟩ := t
  cases kind with
  | pop =>
    have hp : s.memory.stack.items = s.memory.stack.items.pop.push v :=
      (congrArg Stack.items (Stack.add_drop_of_top? h)).symm
    exact ⟨rfl, rfl, rfl, rfl, rfl, rfl, ⟨#[v], hp, rfl⟩, rfl, rfl, rfl⟩
  | random =>
    exact ⟨rfl, rfl, rfl, rfl, rfl, rfl, ⟨#[], Array.append_empty.symm, rfl⟩, rfl, rfl, rfl⟩
  | input =>
    exact ⟨rfl, rfl, rfl, rfl, rfl, rfl, ⟨#[], Array.append_empty.symm, rfl⟩, rfl, rfl, rfl⟩
  | _ => exact refl s

theorem record {a b c : Nat} {s u : State δ} (h : Consumed a b c s u) (v : Value) :
    Consumed a b c s (u.record v) :=
  ⟨h.pc, h.calls, h.registers, h.cells, h.address, h.stackName, h.stack, h.key, h.drawn, h.device⟩

theorem afterReadings (q : Plan) (s : State δ) :
    Consumed (countKind .pop (q.readings s)) (countKind .random (q.readings s))
      (countKind .input (q.readings s)) s (s.afterReadings (q.readings s)) := by
  induction q generalizing s with
  | done e => exact refl s
  | fail f => exact refl s
  | read operand next ih =>
    cases operand with
    | none => exact refl s
    | some t =>
      unfold Plan.readings
      cases hv : s.value? t with
      | none => exact refl s
      | some v =>
        simp only [countKind_cons]
        exact ((consume hv).record v).trans (ih v ((s.consume t.kind).record v))

end Consumed

end LineAsm
