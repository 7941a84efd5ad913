import LineAsm.Proofs.Sources

set_option autoImplicit false

/-!
# Calls and reachable states

A machine is driven by calls: a step, or a value entered for the instruction that waits. Between
calls the log belongs to the instruction at the program counter: it is empty while the machine is
ready, and while it waits the log holds the values of the operands before an input operand. This is
an invariant of every reachable state, whatever the device does.
-/

namespace LineAsm

inductive Call where
  | step
  | enter (v : Value)
deriving DecidableEq, Inhabited

def Ending.report {δ : Type} (p : Program) (pc : Nat) :
    Ending δ → Except Diagnostic Event × State δ
  | .completed s => (.ok .stepped, { s.settle with pc := p.following s.pc })
  | .suspended s => (.ok .input, s)
  | .failed f s => (.error (f.inLine pc), s.settle)

namespace State

variable {δ : Type}

/-- Whether a call finds the machine in the status that it needs. -/
def admits (s : State δ) (c : Call) : Bool :=
  match c with
  | .step => s.status == .ready
  | .enter _ => s.status == .waiting

def takenUp (s : State δ) (c : Call) : State δ :=
  match c with
  | .step => s
  | .enter v => { s with status := .ready }.record v

def plan (p : Program) (s : State δ) : Plan := (p.line s.pc).plan p.labels

/-- The log of a state belongs to the instruction at the program counter, and leaves `q` of it. -/
def Underway (p : Program) (s : State δ) (q : Plan) : Prop :=
  ∃ rs, (s.plan p).Leads rs q ∧ rs.map Prod.snd = s.log

/-- What holds of a state between calls. -/
def Consistent (p : Program) (s : State δ) : Prop :=
  match s.status with
  | .ready => s.log = []
  | .waiting => ∃ t next, t.kind = .input ∧ s.Underway p (.read (some t) next)

theorem takenUp_pc (s : State δ) (c : Call) : (s.takenUp c).pc = s.pc := by
  cases c <;> rfl

theorem takenUp_status {s : State δ} {c : Call} (h : s.admits c = true) :
    (s.takenUp c).status = .ready := by
  cases c with
  | step => exact eq_of_beq h
  | enter v => rfl

theorem Underway.residue_eq {p : Program} {s : State δ} {q : Plan} (h : s.Underway p q) :
    (s.plan p).residue s.log = q := by
  obtain ⟨rs, hl, hlog⟩ := h
  rw [← hlog]
  exact hl.residue_eq

theorem Consistent.exists_underway {p : Program} {s : State δ} {c : Call} (h : s.Consistent p)
    (hc : s.admits c = true) : ∃ q, (s.takenUp c).Underway p q := by
  cases c with
  | step =>
    have hs : s.status = .ready := eq_of_beq hc
    simp only [Consistent, hs] at h
    exact ⟨s.plan p, [], .refl _, h.symm⟩
  | enter v =>
    have hs : s.status = .waiting := eq_of_beq hc
    simp only [Consistent, hs] at h
    obtain ⟨t, next, ht, rs, hl, hlog⟩ := h
    -- the entered value is that of the input operand the instruction stopped at
    refine ⟨next v, rs ++ [(t, v)], ?_, ?_⟩
    · exact hl.trans (.read (by rw [ht]; rfl) (.refl _))
    · rw [List.map_append, hlog]
      rfl

variable [Device δ]

def call (p : Program) (s : State δ) (c : Call) : Except Diagnostic Event × State δ :=
  match c with
  | .step => s.step p
  | .enter v => s.enter p v

def readings (p : Program) (s : State δ) (c : Call) : List (Token × Value) :=
  if s.admits c then ((s.plan p).residue (s.takenUp c).log).readings (s.takenUp c) else []

def reached (p : Program) (s : State δ) (c : Call) : State δ :=
  (s.takenUp c).afterReadings (s.readings p c)

/-- The operand values that the instruction at hand has once a call has read on. -/
def gathered (p : Program) (s : State δ) (c : Call) : List Value :=
  (s.takenUp c).log ++ (s.readings p c).map Prod.snd

theorem call_of_admits {p : Program} {s : State δ} {c : Call} (h : s.admits c = true) :
    s.call p c = (s.takenUp c).dispatch p := by
  cases c with
  | step =>
    have hs : s.status = .ready := eq_of_beq h
    simp only [call, step, hs, takenUp]
  | enter v =>
    have hs : s.status = .waiting := eq_of_beq h
    simp only [call, enter, hs, takenUp]

theorem call_of_not_admits {p : Program} {s : State δ} {c : Call} (h : s.admits c = false) :
    s.call p c =
      (match c with
        | .step => .ok .waiting
        | .enter _ => .error (Fault.noPendingInput.inLine s.pc), s) := by
  cases c with
  | step =>
    cases hs : s.status with
    | ready => simp [admits, hs] at h
    | waiting => simp only [call, step, hs]
  | enter v =>
    cases hs : s.status with
    | ready => simp only [call, enter, hs]
    | waiting => simp [admits, hs] at h

theorem dispatch_eq_report (p : Program) (s : State δ) :
    s.dispatch p = ((s.plan p).run p s.log s).report p s.pc := by
  unfold dispatch plan
  dsimp only
  cases ((p.line s.pc).plan p.labels).run p s.log s <;> rfl

theorem readings_eq {p : Program} {s : State δ} {c : Call} {q : Plan} (hc : s.admits c = true)
    (hq : (s.takenUp c).Underway p q) : s.readings p c = q.readings (s.takenUp c) := by
  have hres : (s.plan p).residue (s.takenUp c).log = q := by
    have h := hq.residue_eq
    unfold plan at h ⊢
    rwa [takenUp_pc] at h
  rw [readings, if_pos hc, hres]

/-- The one case analysis of a call: its readings lead on from those in the log to what is left of
the plan, and the execution ends from there. -/
theorem Consistent.exists_ends {p : Program} {s : State δ} {c : Call} (h : s.Consistent p)
    (hc : s.admits c = true) :
    ∃ rs r ending, rs.map Prod.snd = (s.takenUp c).log ∧
      (s.plan p).Leads (rs ++ s.readings p c) r ∧ r.Ends p (s.reached p c) ending ∧
      s.call p c = ending.report p s.pc := by
  obtain ⟨q, hq⟩ := h.exists_underway hc
  obtain ⟨r, hl, he⟩ := q.exists_ends p (s.takenUp c)
  have hrun : s.call p c = (q.run p [] (s.takenUp c)).report p s.pc := by
    rw [call_of_admits hc, dispatch_eq_report, takenUp_pc, Plan.run_eq_run_residue, hq.residue_eq]
  rw [reached, readings_eq hc hq]
  obtain ⟨rs, hlead, hlog⟩ := hq
  rw [plan, takenUp_pc] at hlead
  exact ⟨rs, r, _, hlog, hlead.trans hl, he, hrun⟩

theorem consumed_reached (p : Program) (s : State δ) (c : Call) :
    Consumed (countKind .pop (s.readings p c)) (countKind .random (s.readings p c))
      (countKind .input (s.readings p c)) s (s.reached p c) := by
  have ht : Consumed 0 0 0 s (s.takenUp c) := by
    cases c with
    | step => exact .refl s
    | enter v => exact { Consumed.refl s with }
  unfold reached readings
  split
  · simpa only [Nat.zero_add] using ht.trans (.afterReadings _ _)
  · exact ht

theorem reached_status {p : Program} {s : State δ} {c : Call} (h : s.admits c = true) :
    (s.reached p c).status = .ready := by
  rw [reached, afterReadings_status, takenUp_status h]

theorem effect_apply_status (e : Effect) (p : Program) (s : State δ) :
    (e.apply p s).status = s.status := by
  apply Effect.apply_ind (motive := fun u => u.status = s.status) e p s <;> intros <;> rfl

theorem sources_of_leads_done {labels : Labels} {l : Line} {rs : List (Token × Value)}
    {e : Effect} (h : (l.plan labels).Leads rs (.done e)) :
    l.sources = rs.map (fun r => some r.1) ∧ l.isWellFormed labels = true := by
  obtain ⟨rest, hsrc, hnil, hfills⟩ := h.follows (l.plan_follows labels)
  rw [hnil, List.append_nil] at hsrc
  refine ⟨hsrc, ?_⟩
  rw [Line.isWellFormed_eq, hfills, hsrc, Bool.and_true, List.all_map, List.all_eq_true]
  exact h.isSource

theorem Consistent.completed_call {p : Program} {s : State δ} {c : Call} (h : s.Consistent p)
    (hd : (s.call p c).1 = .ok .stepped) :
    s.admits c = true ∧ (p.line s.pc).isWellFormed p.labels = true ∧
      (s.readings p c).map (fun r => some r.1) =
        (p.line s.pc).sources.drop (s.takenUp c).log.length ∧
      ∃ e : Effect, (s.call p c).2 =
        { (e.apply p (s.reached p c)).settle with
          pc := p.following (e.apply p (s.reached p c)).pc } := by
  cases hc : s.admits c with
  | false =>
    rw [call_of_not_admits hc] at hd
    cases c <;> cases hd
  | true =>
    obtain ⟨rs, r, ending, hlog, hl, he, heq⟩ := h.exists_ends hc
    rw [heq] at hd ⊢
    cases he with
    | suspended _ _ | refused _ | failed _ | unreadable _ _ => cases hd
    | @completed e _ =>
      obtain ⟨hsrc, hwf⟩ := sources_of_leads_done hl
      refine ⟨rfl, hwf, ?_, e, rfl⟩
      have hlen : (s.takenUp c).log.length = (rs.map fun r => some r.1).length := by
        rw [← hlog, List.length_map, List.length_map]
      rw [hsrc, List.map_append, hlen, List.drop_left]

theorem Consistent.call {p : Program} {s : State δ} (h : s.Consistent p) (c : Call) :
    (s.call p c).2.Consistent p := by
  cases hc : s.admits c with
  | false =>
    rw [call_of_not_admits hc]
    exact h
  | true =>
    obtain ⟨rs, r, ending, hlog, hl, he, heq⟩ := h.exists_ends hc
    rw [heq]
    have hs := reached_status (p := p) hc
    cases he with
    | completed _ =>
      unfold Ending.report Consistent
      dsimp only [settle]
      rw [effect_apply_status, hs]
    | @suspended t next ht _ =>
      refine ⟨t, next, ht, rs ++ s.readings p c, ?_, ?_⟩
      · change ((s.reached p c).plan p).Leads _ _
        rw [plan, (consumed_reached p s c).pc]
        exact hl
      · rw [List.map_append, hlog]
        exact (afterReadings_log (s.takenUp c) (s.readings p c)).symm
    | refused _ | failed _ | unreadable _ _ =>
      unfold Ending.report Consistent
      dsimp only [settle]
      rw [hs]

end State

/-- The states that calls lead to from a machine that has just been loaded. The generator may be
seeded anew between calls, and the outside world may do what it likes to the device. -/
inductive Reachable {δ : Type} [Device δ] (p : Program) : State δ → Prop where
  | boot (generator : Generator) (device : δ) : Reachable p (.boot generator device)
  | call {s : State δ} (h : Reachable p s) (c : Call) : Reachable p (s.call p c).2
  | reseed {s : State δ} (h : Reachable p s) (seed : UInt64) : Reachable p (s.reseed seed)
  | attach {s : State δ} (h : Reachable p s) (device : δ) : Reachable p { s with device }

theorem Reachable.consistent {δ : Type} [Device δ] {p : Program} {s : State δ}
    (h : Reachable p s) : s.Consistent p := by
  induction h with
  | boot generator device => rfl
  | call _ c ih => exact ih.call c
  | reseed _ seed ih => exact ih
  | attach _ device ih => exact ih

end LineAsm
