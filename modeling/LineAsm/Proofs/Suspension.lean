import LineAsm.Proofs.Attended

set_option autoImplicit false

/-!
# Suspension is invisible

A machine whose tape holds the input beforehand and a machine with an empty tape whose attendant
enters the same values run alike, instruction by instruction: the same results, and the same state
but for the values that one has on its tape and the other's attendant has in hand.
-/

namespace LineAsm

namespace State

def supplied (s : State Tape) (vs : List Value) : State Tape :=
  { s with device := { s.device with pending := vs } }

theorem supplied_nil {s : State Tape} (h : s.device.pending = []) : s.supplied [] = s := by
  rw [supplied, ← h]

theorem supplied_value? {t : Token} (ht : t.kind ≠ .input) (s : State Tape) (vs : List Value) :
    (s.supplied vs).value? t = s.value? t := by
  obtain ⟨kind, text, line⟩ := t
  cases kind with
  | input => exact absurd rfl ht
  | _ => rfl

theorem supplied_consume {k : TokenKind} (hk : k ≠ .input) (s : State Tape) (vs : List Value) :
    (s.supplied vs).consume k = (s.consume k).supplied vs := by
  cases k with
  | input => exact absurd rfl hk
  | _ => rfl

theorem supplied_fault? (e : Effect) (s : State Tape) (vs : List Value) :
    e.fault? (s.supplied vs) = e.fault? s := by
  cases e <;> rfl

theorem supplied_jump (position : Int) (p : Program) (s : State Tape) (vs : List Value) :
    (Effect.jump position).apply p (s.supplied vs) =
      ((Effect.jump position).apply p s).supplied vs := rfl

theorem supplied_apply (e : Effect) (p : Program) (s : State Tape) (vs : List Value) :
    e.apply p (s.supplied vs) = (e.apply p s).supplied vs := by
  cases e with
  | skipUnless test => cases test <;> rfl
  | jumpBy offset =>
    have hr : Effect.relative (s.supplied vs).pc offset = Effect.relative s.pc offset := rfl
    rw [Effect.apply_jumpBy, hr, supplied_jump, Effect.apply_jumpBy]
  | _ => rfl

theorem pending_consume {k : TokenKind} (hk : k ≠ .input) (s : State Tape) :
    (s.consume k).device.pending = s.device.pending := by
  cases k with
  | input => exact absurd rfl hk
  | _ => rfl

theorem pending_apply (e : Effect) (p : Program) (s : State Tape) :
    (e.apply p s).device.pending = s.device.pending := by
  apply Effect.apply_ind (motive := fun u => u.device.pending = s.device.pending) e p s <;>
    intros <;> rfl

/-- The report of a supplied machine against that of an attended one and the values left to it. -/
def Agrees (a : Except Diagnostic Event × State Tape)
    (b : (Except Diagnostic Event × State Tape) × List Value) : Prop :=
  a = (b.1.1, b.1.2.supplied b.2) ∧ b.1.2.device.pending = []

theorem agrees_of_ne_input (p : Program) (vs : List Value) {event : Except Diagnostic Event}
    {s : State Tape} (h : event ≠ .ok .input) (hp : s.device.pending = []) :
    Agrees (event, s.supplied vs) (answer p vs (event, s)) := by
  rw [answer_of_ne_input p vs h]
  exact ⟨rfl, hp⟩

theorem agrees_completed (p : Program) (pc : Nat) {s : State Tape} (vs : List Value)
    (hp : s.device.pending = []) :
    Agrees ((Ending.completed (s.supplied vs)).report p pc)
      (answer p vs ((Ending.completed s).report p pc)) := by
  have h : (Except.ok .stepped : Except Diagnostic Event) ≠ .ok .input := fun h => nomatch h
  have hp' : ({ s.settle with pc := p.following s.pc } : State Tape).device.pending = [] := hp
  exact agrees_of_ne_input p vs h hp'

theorem agrees_failed (p : Program) (pc : Nat) (f : Fault) {s : State Tape} (vs : List Value)
    (hp : s.device.pending = []) :
    Agrees ((Ending.failed f (s.supplied vs)).report p pc)
      (answer p vs ((Ending.failed f s).report p pc)) := by
  have h : (Except.error (f.inLine pc) : Except Diagnostic Event) ≠ .ok .input :=
    fun h => nomatch h
  have hp' : s.settle.device.pending = [] := hp
  exact agrees_of_ne_input p vs h hp'

theorem read_input_of_empty {t : Token} (ht : t.kind = .input) {s : State Tape}
    (hp : s.device.pending = []) : s.read (some t) = .suspended { s with status := .waiting } := by
  have hr : Device.request s.device = (none, s.device) := by simp only [Device.request, hp]
  simp only [read, ht, readInput, hr]

theorem read_input_supplied {t : Token} (ht : t.kind = .input) (s : State Tape) (v : Value)
    (vs : List Value) : (s.supplied (v :: vs)).read (some t) = .value v (s.supplied vs) := by
  simp only [read, ht]
  rfl

theorem enter_waiting {s : State Tape} (hs : s.status = .ready) (p : Program) (v : Value) :
    ({ s with status := .waiting } : State Tape).enter p v = (s.record v).dispatch p := by
  have h : ({ s with status := .ready } : State Tape) = s := by rw [← hs]
  unfold enter
  dsimp only
  rw [h]

/-- The induction is on the plan that is left. Where the supplied machine takes an input from its
tape, the attended one suspends, and entering the value replays the log up to the same operand. -/
theorem agrees_of_residue (p : Program) (q : Plan) (s : State Tape) (vs : List Value)
    (hp : s.device.pending = []) (hs : s.status = .ready) (hq : (s.plan p).residue s.log = q) :
    Agrees ((q.run p [] (s.supplied vs)).report p s.pc)
      (answer p vs ((q.run p [] s).report p s.pc)) := by
  induction q generalizing s vs with
  | done e =>
    rw [Plan.run_done, Plan.run_done, supplied_fault?]
    cases e.fault? s with
    | some f => exact agrees_failed p s.pc f vs hp
    | none =>
      rw [supplied_apply]
      exact agrees_completed p s.pc vs ((pending_apply e p s).trans hp)
  | fail f => exact agrees_failed p s.pc f vs hp
  | read operand next ih =>
    have hnext : ∀ v, (s.plan p).residue (s.log ++ [v]) = next v := by
      intro v
      rw [Plan.residue_append, hq]
      exact Plan.residue_nil (next v)
    cases operand with
    | none => exact agrees_failed p s.pc .missingSource vs hp
    | some t =>
      unfold Plan.run
      by_cases ht : t.kind = .input
      · have hw := read_input_of_empty ht hp
        rw [hw]
        cases vs with
        | nil =>
          have hn : ({ s with status := .waiting } : State Tape).supplied [] =
              { s with status := .waiting } := supplied_nil hp
          rw [supplied_nil hp, hw]
          exact ⟨Prod.ext rfl hn.symm, hp⟩
        | cons v vs =>
          rw [read_input_supplied ht]
          change Agrees _ (answer p vs (({ s with status := .waiting } : State Tape).enter p v))
          rw [enter_waiting hs, dispatch_eq_report, Plan.run_eq_run_residue,
            show ((s.record v).plan p).residue (s.record v).log = next v from hnext v]
          exact ih v (s.record v) vs hp hs (hnext v)
      · have hne : ∀ u, some t = some u → u.kind ≠ .input := fun u hu => Option.some.inj hu ▸ ht
        cases hv : s.value? t with
        | some v =>
          have hv' : (s.supplied vs).value? t = some v := by rw [supplied_value? ht, hv]
          rw [read_of_value? hv, read_of_value? hv', supplied_consume ht]
          have hpc : ((s.consume t.kind).record v).pc = s.pc := (Consumed.consume hv).pc
          have hres : (((s.consume t.kind).record v).plan p).residue
              ((s.consume t.kind).record v).log = next v := by
            rw [plan, hpc, record, consume_log]
            exact hnext v
          have h := ih v ((s.consume t.kind).record v) vs
            ((pending_consume ht s).trans hp) ((consume_status s t.kind).trans hs) hres
          rw [hpc] at h
          exact h
        | none =>
          have hv' : (s.supplied vs).value? t = none := by rw [supplied_value? ht, hv]
          rw [read_of_value?_eq_none hne hv, read_of_value?_eq_none hne hv']
          exact agrees_failed p s.pc _ vs hp

theorem agrees_step (p : Program) (s : State Tape) (vs : List Value)
    (hp : s.device.pending = []) : Agrees ((s.supplied vs).step p) (s.attend p vs) := by
  unfold attend step
  cases hs : s.status with
  | waiting =>
    have hs' : (s.supplied vs).status = .waiting := hs
    rw [hs']
    exact agrees_of_ne_input p vs (fun h => nomatch h) hp
  | ready =>
    have hs' : (s.supplied vs).status = .ready := hs
    rw [hs']
    dsimp only
    rw [dispatch_eq_report, dispatch_eq_report, Plan.run_eq_run_residue,
      Plan.run_eq_run_residue p (s.plan p)]
    exact agrees_of_residue p _ s vs hp hs rfl

def stepMany {δ : Type} [Device δ] (p : Program) :
    Nat → State δ → List (Except Diagnostic Event) × State δ
  | 0, s => ([], s)
  | n + 1, s =>
    let call := s.step p
    let later := stepMany p n call.2
    (call.1 :: later.1, later.2)

/-- Attends a number of instructions and lists their results; the values left come last. -/
def attendMany {δ : Type} [Device δ] (p : Program) :
    Nat → List Value → State δ → List (Except Diagnostic Event) × State δ × List Value
  | 0, vs, s => ([], s, vs)
  | n + 1, vs, s =>
    let turn := s.attend p vs
    let later := attendMany p n turn.2 turn.1.2
    (turn.1.1 :: later.1, later.2)

theorem stepMany_supplied (p : Program) (n : Nat) (vs : List Value) (s : State Tape)
    (hp : s.device.pending = []) :
    stepMany p n (s.supplied vs) =
        ((attendMany p n vs s).1, (attendMany p n vs s).2.1.supplied (attendMany p n vs s).2.2) ∧
      (attendMany p n vs s).2.1.device.pending = [] := by
  induction n generalizing vs s with
  | zero => exact ⟨rfl, hp⟩
  | succ n ih =>
    obtain ⟨hstep, hp'⟩ := agrees_step p s vs hp
    obtain ⟨hlater, hp''⟩ := ih (s.attend p vs).2 (s.attend p vs).1.2 hp'
    refine ⟨?_, hp''⟩
    simp only [stepMany, attendMany]
    rw [hstep]
    dsimp only
    rw [hlater]

theorem reachable_stepMany {δ : Type} [Device δ] {p : Program} {s : State δ} (h : Reachable p s)
    (n : Nat) : Reachable p (stepMany p n s).2 := by
  induction n generalizing s with
  | zero => exact h
  | succ n ih => exact ih (.call h .step)

end State

/-- From `s` to `u` every source operand of a line took effect once, with input from `vs`: as many
numbers were drawn, values taken in order and entries popped as the line has such operands. At most
one entry was pushed, after the pops. -/
structure TakenOnce {δ : Type} (l : Line) (s u : State δ) (vs rest : List Value) : Prop where
  key : u.generator.key = s.generator.key
  drawn : u.generator.drawn = s.generator.drawn + l.sourceCount .random
  entered : ∃ taken, vs = taken ++ rest ∧ taken.length = l.sourceCount .input
  popped : ∃ kept taken : Array Value, s.memory.stack.items = kept ++ taken ∧
    taken.size = l.sourceCount .pop ∧
    (u.memory.stack.items = kept ∨ ∃ v, u.memory.stack.items = kept.push v)

theorem Line.sourceCount_eq {l : Line} {rs : List (Token × Value)}
    (h : rs.map (fun r => some r.1) = l.sources) (k : TokenKind) :
    countKind k rs = l.sourceCount k := by
  rw [sourceCount, ← h, List.countP_map]
  apply List.countP_congr
  intro r _
  simp

theorem pending_of_request {s : State Tape} {v : Value}
    (h : (Device.request s.device).1 = some v) :
    s.device.pending = v :: (Device.request s.device).2.pending := by
  simp only [Device.request] at h ⊢
  split at h
  · cases h
  · rename_i w ws hp
    cases h
    simp only [hp]

theorem pending_readings (q : Plan) (s : State Tape) :
    s.device.pending =
      ((q.readings s).filter fun r => r.1.kind = .input).map Prod.snd ++
        (s.afterReadings (q.readings s)).device.pending := by
  induction q generalizing s with
  | done e => rfl
  | fail f => rfl
  | read operand next ih =>
    cases operand with
    | none => rfl
    | some t =>
      unfold Plan.readings
      cases hv : s.value? t with
      | none => rfl
      | some v =>
        have h := ih v ((s.consume t.kind).record v)
        by_cases ht : t.kind = .input
        · have hr : (Device.request s.device).1 = some v := by
            simpa only [State.value?, ht] using hv
          have hd : ((s.consume t.kind).record v).device = (Device.request s.device).2 := by
            rw [ht]
            rfl
          rw [hd] at h
          rw [List.filter_cons_of_pos (by simpa using ht), pending_of_request hr, h]
          rfl
        · rw [List.filter_cons_of_neg (by simpa using ht), ← State.pending_consume ht s]
          exact h

theorem stack_apply (e : Effect) (p : Program) {δ : Type} [Device δ] (s : State δ) :
    (e.apply p s).memory.stack.items = s.memory.stack.items ∨
      ∃ v, (e.apply p s).memory.stack.items = s.memory.stack.items.push v := by
  apply Effect.apply_ind (motive := fun u => u.memory.stack.items = s.memory.stack.items ∨
    ∃ v, u.memory.stack.items = s.memory.stack.items.push v) e p s
  · exact fun _ => .inl rfl
  · exact fun _ _ => .inl rfl
  · exact fun _ => .inl rfl
  · exact fun _ _ => .inl rfl
  · exact fun v => .inr ⟨v, rfl⟩

theorem generator_apply (e : Effect) (p : Program) {δ : Type} [Device δ] (s : State δ) :
    (e.apply p s).generator = s.generator := by
  apply Effect.apply_ind (motive := fun u => u.generator = s.generator) e p s <;> intros <;> rfl

theorem takenOnce_step {p : Program} {s : State Tape} (h : s.Consistent p)
    (hd : (s.step p).1 = .ok .stepped) :
    TakenOnce (p.line s.pc) s (s.step p).2 s.device.pending (s.step p).2.device.pending := by
  obtain ⟨hc, -, hsrc, e, he⟩ := h.completed_call (c := .step) hd
  have hready : s.status = .ready := eq_of_beq hc
  have hlog : s.log = [] := by simpa only [State.Consistent, hready] using h
  have hread : (s.readings p .step).map (fun r => some r.1) = (p.line s.pc).sources := by
    rw [hsrc, show (s.takenUp .step).log = [] from hlog]
    rfl
  have hcount := Line.sourceCount_eq hread
  have hcons := State.consumed_reached p s .step
  have hgen : (s.step p).2.generator = (s.reached p .step).generator := by
    rw [show s.step p = s.call p .step from rfl, he]
    exact generator_apply e p _
  have hpend : (s.step p).2.device.pending = (s.reached p .step).device.pending := by
    rw [show s.step p = s.call p .step from rfl, he]
    exact State.pending_apply e p _
  have hstack : (s.step p).2.memory.stack = (e.apply p (s.reached p .step)).memory.stack := by
    rw [show s.step p = s.call p .step from rfl, he]
    rfl
  refine ⟨?_, ?_, ?_, ?_⟩
  · rw [hgen]
    exact hcons.key
  · rw [hgen, hcons.drawn, hcount]
  · have htape := pending_readings ((s.plan p).residue s.log) s
    have hq : s.readings p .step = ((s.plan p).residue s.log).readings s := by
      rw [State.readings, if_pos hc]
      rfl
    rw [← hq] at htape
    refine ⟨((s.readings p .step).filter fun r => r.1.kind = .input).map Prod.snd, ?_, ?_⟩
    · rw [hpend]
      exact htape
    · rw [List.length_map, ← hcount, countKind, List.countP_eq_length_filter]
  · obtain ⟨taken, hitems, hsize⟩ := hcons.stack
    refine ⟨_, taken, hitems, hsize.trans (hcount .pop), ?_⟩
    rw [hstack]
    exact stack_apply e p _

theorem takenOnce_attend {p : Program} {s : State Tape} {vs : List Value}
    (h : (s.supplied vs).Consistent p) (hp : s.device.pending = [])
    (hd : (s.attend p vs).1.1 = .ok .stepped) :
    TakenOnce (p.line s.pc) s (s.attend p vs).1.2 vs (s.attend p vs).2 := by
  obtain ⟨heq, -⟩ := State.agrees_step p s vs hp
  have hstep : ((s.supplied vs).step p).1 = .ok .stepped := by rw [heq, hd]
  have ht := takenOnce_step h hstep
  rw [heq] at ht
  exact ⟨ht.key, ht.drawn, ht.entered, ht.popped⟩

/-- A machine with the input on its tape and an attended one without any have run alike after every
number of instructions: the same results, and the same state but for the values that are still on
the tape or in the attendant's hand. So an instruction that completes took each of its sources once,
however often it was suspended. -/
theorem attended_run_eq_supplied_run (p : Program) (generator : Generator) (vs : List Value)
    (n : Nat) :
    let supplied := State.stepMany p n (.boot generator (Tape.ofList vs))
    let attended := State.attendMany p n vs (.boot generator (Tape.ofList []))
    let s := attended.2.1
    let left := attended.2.2
    supplied.1 = attended.1 ∧ supplied.2 = s.supplied left ∧ s.device.pending = [] ∧
      ((s.attend p left).1.1 = .ok .stepped →
        TakenOnce (p.line s.pc) s (s.attend p left).1.2 left (s.attend p left).2) := by
  intro supplied attended s left
  obtain ⟨heq, hp⟩ := State.stepMany_supplied p n vs (.boot generator (Tape.ofList [])) rfl
  have hstart : (State.boot generator (Tape.ofList [])).supplied vs =
      .boot generator (Tape.ofList vs) := rfl
  rw [hstart] at heq
  have hreach : Reachable p supplied.2 :=
    State.reachable_stepMany (.boot generator (Tape.ofList vs)) n
  have hstate : supplied.2 = s.supplied left := congrArg Prod.snd heq
  rw [hstate] at hreach
  exact ⟨congrArg Prod.fst heq, hstate, hp, takenOnce_attend hreach.consistent hp⟩

/-- The second line pops, suspends and completes. -/
theorem attended_run_eq_supplied_run_after_pop :
    let p := (Program.load "mov 'a' push\ncat pop in").toOption.getD default
    let attended := State.attendMany p 1 [.text "b"] (.initial 0 (Tape.ofList []))
    let s := attended.2.1
    let left := attended.2.2
    (s.step p).1 = .ok .input ∧ (s.attend p left).1.1 = .ok .stepped ∧
      TakenOnce (p.line s.pc) s (s.attend p left).1.2 left (s.attend p left).2 := by
  intro p
  have h := attended_run_eq_supplied_run p (.ofSeed 0) [.text "b"] 1
  dsimp only at h ⊢
  refine ⟨?_, ?_, h.2.2.2 ?_⟩ <;> decide +kernel

end LineAsm
