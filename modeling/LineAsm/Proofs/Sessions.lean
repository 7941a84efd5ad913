import LineAsm.Console
import LineAsm.Machine.Run
import LineAsm.Proofs.Protocol
import LineAsm.Proofs.Suspension
import Mathlib.Control.Monad.Basic

set_option autoImplicit false

/-!
# Sessions

A session at the console steps a machine with an empty tape, and enters a typed line each time an
instruction asks for one. It goes like a run of a machine that has all lines on its tape beforehand;
without a limit, like the runs that come to an end by themselves.
-/

namespace LineAsm

namespace Progress

def session : Progress → Session
  | .running s => s
  | .asking s => s
  | .finished s _ => s

/-- The call that the next turn makes, if it makes one, and the lines that are left after it. -/
def call? (lines : List String) : Progress → Option (Call × List String)
  | .running s => if s.atLimit then none else some (.step, lines)
  | .asking _ =>
    match lines with
    | [] => none
    | line :: lines => some (.enter (.ofTyped line), lines)
  | .finished _ _ => none

def ended : Progress → Progress
  | .running s => s.close
  | .asking s => s.close
  | .finished s f => .finished s f

def advance (progress : Progress) (c : Call) : Progress :=
  progress.session.after (progress.session.state.call progress.session.program c)

/-- The calls that a session makes with the given typed lines, in at most `n` turns. -/
def calls : Nat → List String → Progress → List Call
  | 0, _, _ => []
  | n + 1, lines, progress =>
    match progress.call? lines with
    | none => []
    | some (c, lines) => c :: calls n lines (progress.advance c)

theorem drive_finished (n : Nat) (lines : List String) (s : Session) (f : Farewell) :
    drive n lines (.finished s f) = .finished s f := by
  cases n <;> cases lines <;> rfl

theorem drive_succ (n : Nat) (lines : List String) (progress : Progress) :
    drive (n + 1) lines progress =
      match progress.call? lines with
      | none => progress.ended
      | some (c, lines) => drive n lines (progress.advance c) := by
  cases progress with
  | running s =>
    rw [drive, call?, Session.next]
    cases s.atLimit with
    | true => exact drive_finished n lines s _
    | false => rfl
  | asking s =>
    cases lines with
    | nil => rfl
    | cons line lines => rfl
  | finished s f => exact drive_finished (n + 1) lines s f

end Progress

/-! ### What holds between the turns of a session -/

structure Session.Sound (p : Program) (limit : Nat) (s : Session) : Prop where
  program : s.program = p
  limited : s.limit = some limit
  consistent : s.state.Consistent p
  steps_le : s.steps ≤ limit

theorem Session.Sound.atLimit_eq {p : Program} {limit : Nat} {s : Session} (h : s.Sound p limit) :
    s.atLimit = decide (limit ≤ s.steps) := by
  rw [atLimit, h.limited]

namespace Progress

/-- A session that runs has a machine that is ready, one that asks has a machine that waits. -/
inductive Sound (p : Program) (limit : Nat) : Progress → Prop where
  | running {s : Session} (h : s.Sound p limit) (hs : s.state.status = .ready) :
      Sound p limit (.running s)
  | asking {s : Session} (h : s.Sound p limit) (hs : s.state.status = .waiting)
      (hlt : s.steps < limit) : Sound p limit (.asking s)
  | finished {s : Session} {f : Farewell} (h : s.Sound p limit) : Sound p limit (.finished s f)

variable {p : Program} {limit : Nat} {progress : Progress}

theorem Sound.session (h : progress.Sound p limit) : progress.session.Sound p limit := by
  cases h with
  | running h _ | asking h _ _ | finished h => exact h

theorem Sound.admits (h : progress.Sound p limit) {lines rest : List String} {c : Call}
    (hc : progress.call? lines = some (c, rest)) :
    progress.session.state.admits c = true ∧ progress.session.steps < limit := by
  cases h with
  | @running s h hs =>
    rw [call?, h.atLimit_eq] at hc
    split at hc
    · cases hc
    · rename_i hlt
      cases hc
      rw [decide_eq_true_eq, Nat.not_le] at hlt
      exact ⟨beq_iff_eq.2 hs, hlt⟩
  | @asking s h hs hlt =>
    cases lines with
    | nil => cases hc
    | cons line lines =>
      cases hc
      exact ⟨beq_iff_eq.2 hs, hlt⟩
  | finished h => cases hc

theorem Sound.ended (h : progress.Sound p limit) : progress.ended.Sound p limit := by
  cases h with
  | running h _ | asking h _ _ | finished h => exact .finished h

end Progress

theorem State.Consistent.answers {p : Program} {u : State Tape} (hu : u.Consistent p) {c : Call}
    (hc : u.admits c = true) :
    (∃ v, u.call p c = (.ok .stepped, v) ∧ v.status = .ready) ∨
      (∃ v, u.call p c = (.ok .input, v) ∧ v.status = .waiting ∧ v.toAsk p < u.toAsk p) ∨
      ∃ d v, u.call p c = (.error d, v) := by
  have hstatus := status_of_admitted hu hc
  have hwaiting := call_fst_ne_waiting (p := p) hc
  have hlt := hu.toAsk_lt hc
  generalize u.call p c = call at hstatus hwaiting hlt
  obtain ⟨event, v⟩ := call
  match event with
  | .ok .stepped =>
    refine .inl ⟨v, rfl, ?_⟩
    cases hs : v.status with
    | ready => rfl
    | waiting => exact absurd (hstatus.1 hs) (fun h => nomatch h)
  | .ok .input => exact .inr (.inl ⟨v, rfl, hstatus.2 rfl, hlt rfl⟩)
  | .ok .waiting => exact absurd rfl hwaiting
  | .error d => exact .inr (.inr ⟨d, v, rfl⟩)

theorem Session.Sound.after {p : Program} {limit : Nat} {s : Session} (h : s.Sound p limit)
    {u : State Tape} (hu : u.Consistent p) {c : Call} (hc : u.admits c = true)
    (hlt : s.steps < limit) : (s.after (u.call p c)).Sound p limit := by
  have hnext : (u.call p c).2.Consistent p := hu.call c
  rcases hu.answers hc with ⟨v, heq, hready⟩ | ⟨v, heq, hwaits, -⟩ | ⟨d, v, heq⟩ <;>
    rw [heq] at hnext ⊢
  · exact .running ⟨h.program, h.limited, hnext, hlt⟩ hready
  · exact .asking ⟨h.program, h.limited, hnext, h.steps_le⟩ hwaits hlt
  · exact .finished ⟨h.program, h.limited, hnext, h.steps_le⟩

namespace Progress

variable {p : Program} {limit : Nat} {progress : Progress}

theorem Sound.advance (h : progress.Sound p limit) {lines rest : List String} {c : Call}
    (hc : progress.call? lines = some (c, rest)) : (progress.advance c).Sound p limit := by
  obtain ⟨hadmits, hlt⟩ := h.admits hc
  rw [Progress.advance, h.session.program]
  exact h.session.after h.session.consistent hadmits hlt

theorem Sound.drive (h : progress.Sound p limit) (n : Nat) (lines : List String) :
    (Progress.drive n lines progress).Sound p limit := by
  induction n generalizing lines progress with
  | zero => exact h
  | succ n ih =>
    rw [drive_succ]
    split
    · exact h.ended
    · rename_i c rest hc
      exact ih (h.advance hc) rest

/-! ### The calls of a session -/

theorem session_ended (progress : Progress) : progress.ended.session = progress.session := by
  cases progress <;> rfl

end Progress

theorem Session.state_after (s : Session) (call : Except Diagnostic Event × State Tape) :
    (s.after call).session.state = call.2 := by
  unfold after
  split <;> rfl

theorem Session.program_after (s : Session) (call : Except Diagnostic Event × State Tape) :
    (s.after call).session.program = s.program := by
  unfold after
  split <;> rfl

theorem Session.steps_after {p : Program} (s : Session) {u : State Tape} (hu : u.Consistent p)
    {c : Call} (hc : u.admits c = true) :
    (s.after (u.call p c)).session.steps =
      s.steps + if (u.call p c).1 = .ok .stepped then 1 else 0 := by
  rcases hu.answers hc with ⟨v, heq, -⟩ | ⟨v, heq, -, -⟩ | ⟨d, v, heq⟩ <;> rw [heq] <;> rfl

theorem map_request_exchanges {σ δ : Type}
    {serve : σ → Request δ → Option (Except Diagnostic Event) × σ} (s : σ)
    (rs : List (Request δ)) : (exchanges serve s rs).map Exchange.request = rs := by
  induction rs generalizing s with
  | nil => rfl
  | cons r rs ih => exact congrArg _ (ih _)

def Exchange.completed {σ δ : Type} (x : Exchange σ δ) : Bool :=
  decide (x.answer = some (.ok .stepped))

namespace Progress

variable {p : Program} {limit : Nat} {progress : Progress}

theorem program_advance (progress : Progress) (c : Call) :
    (progress.advance c).session.program = progress.session.program := by
  rw [advance]
  exact Session.program_after _ _

theorem state_advance (progress : Progress) (c : Call) :
    (progress.advance c).session.state =
      (progress.session.state.call progress.session.program c).2 := by
  rw [advance, Session.state_after]

/-- What the machine of a session is asked, and what it answers. -/
def transcript (n : Nat) (lines : List String) (progress : Progress) :
    List (Exchange (State Tape) Tape) :=
  exchanges (State.serve progress.session.program) progress.session.state
    ((calls n lines progress).map .call)

theorem transcript_succ (n : Nat) (lines : List String) (progress : Progress) :
    transcript (n + 1) lines progress =
      match progress.call? lines with
      | none => []
      | some (c, rest) =>
        let answer := progress.session.state.call progress.session.program c
        ⟨progress.session.state, .call c, some answer.1, answer.2⟩ ::
          transcript n rest (progress.advance c) := by
  rw [transcript, calls]
  split
  · rfl
  · rename_i c rest hc
    rw [transcript, program_advance, state_advance]
    rfl

theorem state_drive (n : Nat) (lines : List String) (progress : Progress) :
    (drive n lines progress).session.state =
      served (State.serve progress.session.program) progress.session.state
        ((calls n lines progress).map .call) := by
  induction n generalizing lines progress with
  | zero => rfl
  | succ n ih =>
    rw [drive_succ, calls]
    split
    · rw [session_ended]
      rfl
    · rename_i c rest hc
      rw [ih rest, program_advance, state_advance]
      rfl

theorem Sound.steps_drive (h : progress.Sound p limit) (n : Nat) (lines : List String) :
    (Progress.drive n lines progress).session.steps =
      progress.session.steps + (transcript n lines progress).countP Exchange.completed := by
  induction n generalizing lines progress with
  | zero => rfl
  | succ n ih =>
    rw [drive_succ, transcript_succ]
    split
    · rw [session_ended]
      rfl
    · rename_i c rest hc
      have hsteps := progress.session.steps_after h.session.consistent (h.admits hc).1
      rw [← h.session.program] at hsteps
      rw [ih (h.advance hc) rest, Progress.advance, hsteps, List.countP_cons]
      simp only [Exchange.completed, decide_eq_true_eq, Option.some_inj]
      omega

theorem Sound.transcript (h : progress.Sound p limit) (n : Nat) (lines : List String) :
    ∀ x ∈ Progress.transcript n lines progress, ∃ c, x.request = .call c ∧
      x.before.admits c = true ∧ x.answer ≠ some (.ok .waiting) := by
  induction n generalizing lines progress with
  | zero => simp [Progress.transcript, calls, exchanges]
  | succ n ih =>
    rw [transcript_succ]
    split
    · simp
    · rename_i c rest hc
      rw [List.forall_mem_cons]
      have hadmits := (h.admits hc).1
      refine ⟨⟨c, rfl, hadmits, ?_⟩, ih (h.advance hc) rest⟩
      intro hwaiting
      exact State.call_fst_ne_waiting hadmits (Option.some.inj hwaiting)

/-! ### Instructions of a session -/

def entries (lines : List String) : List Call := lines.map fun line => .enter (.ofTyped line)

/-- The calls for one instruction: a step, and the typed lines it asks for. -/
def instruction (lines : List String) : List Call := .step :: entries lines

def asks (p : Program) : Progress → Nat
  | .running _ => 0
  | .asking s => s.state.toAsk p + 1
  | .finished _ _ => 0

def room (limit : Nat) : Progress → Nat
  | .running s => limit - s.steps
  | .asking s => limit - (s.steps + 1)
  | .finished _ _ => 0

/-- Some lines for the instruction at hand, and then instructions, each with at most two lines. -/
def Grouped (lines : List String) (asks room : Nat) (cs : List Call) : Prop :=
  ∃ (entered : List String) (groups : List (List String)),
    cs = entries entered ++ groups.flatMap instruction ∧ entered ++ groups.flatten <+: lines ∧
      entered.length ≤ asks ∧ groups.length ≤ room ∧ ∀ g ∈ groups, g.length ≤ 2

end Progress

theorem State.toAsk_le {δ : Type} {s : State δ} (h : s.status = .ready) (p : Program) :
    s.toAsk p ≤ 2 := by
  have hask : s.toAsk p = s.inputsLeft p := by simp only [toAsk, h]
  calc s.toAsk p ≤ (p.line s.pc).sourceCount .input := hask ▸ inputsLeft_le p s
    _ ≤ (p.line s.pc).sources.length := List.countP_le_length
    _ ≤ 2 := (p.line s.pc).sources_length_le

theorem Session.asks_after {p : Program} (s : Session) {u : State Tape} (hu : u.Consistent p)
    {c : Call} (hc : u.admits c = true) : (s.after (u.call p c)).asks p ≤ u.toAsk p := by
  rcases hu.answers hc with ⟨v, heq, -⟩ | ⟨v, heq, -, hlt⟩ | ⟨d, v, heq⟩ <;> rw [heq]
  · exact Nat.zero_le _
  · exact hlt
  · exact Nat.zero_le _

theorem Session.room_after (s : Session) (call : Except Diagnostic Event × State Tape)
    (limit : Nat) : (s.after call).room limit ≤ limit - (s.steps + 1) := by
  unfold after
  split
  · exact Nat.le_refl _
  · exact Nat.le_refl _
  · exact Nat.zero_le _

namespace Progress

variable {p : Program} {limit : Nat} {progress : Progress}

theorem Sound.grouped (h : progress.Sound p limit) (n : Nat) (lines : List String) :
    Grouped lines (progress.asks p) (progress.room limit) (calls n lines progress) := by
  induction n generalizing lines progress with
  | zero => exact ⟨[], [], rfl, List.nil_prefix, Nat.zero_le _, Nat.zero_le _, by simp⟩
  | succ n ih =>
    rw [calls]
    split
    · exact ⟨[], [], rfl, List.nil_prefix, Nat.zero_le _, Nat.zero_le _, by simp⟩
    · rename_i c rest hc
      obtain ⟨hadmits, hlt⟩ := h.admits hc
      obtain ⟨entered, groups, hcalls, hprefix, hlen, hroom, htwo⟩ := ih (h.advance hc) rest
      have hasks : (progress.advance c).asks p ≤ progress.session.state.toAsk p := by
        rw [Progress.advance, h.session.program]
        exact progress.session.asks_after h.session.consistent hadmits
      have hless : (progress.advance c).room limit ≤ limit - (progress.session.steps + 1) :=
        progress.session.room_after _ limit
      rw [hcalls]
      cases h with
      | @running s h hs =>
        rw [call?] at hc
        split at hc
        · cases hc
        cases hc
        have hfirst : entered.length ≤ 2 :=
          Nat.le_trans hlen (Nat.le_trans hasks (State.toAsk_le hs p))
        have hstarted : groups.length + 1 ≤ limit - s.steps := by
          have hlt : s.steps < limit := hlt
          have hrest : groups.length ≤ limit - (s.steps + 1) := Nat.le_trans hroom hless
          omega
        exact ⟨[], entered :: groups, rfl, hprefix, Nat.zero_le _, hstarted,
          List.forall_mem_cons.2 ⟨hfirst, htwo⟩⟩
      | @asking s h hs _ =>
        cases lines with
        | nil => cases hc
        | cons line lines =>
          cases hc
          exact ⟨line :: entered, groups, rfl, (List.prefix_cons_inj line).2 hprefix,
            Nat.succ_le_succ (Nat.le_trans hlen hasks), Nat.le_trans hroom hless, htwo⟩
      | finished h => cases hc

end Progress

/-! ### A session against a run with all lines on the tape -/

theorem Session.after_with_state (s : Session) (u : State Tape)
    (call : Except Diagnostic Event × State Tape) :
    ({ s with state := u } : Session).after call = s.after call := by
  obtain ⟨event, v⟩ := call
  match event with
  | .error d => rfl
  | .ok .stepped => rfl
  | .ok .input => rfl
  | .ok .waiting => rfl

/-- The instruction that has made a call is over after `k` more turns of the session, as it is for
an attendant with the same lines: `last` was the last of its calls, in the state `v`. -/
structure Session.Answered (p : Program) (s : Session) (lines : List String)
    (call : Except Diagnostic Event × State Tape) (k : Nat) (rest : List String) (v : State Tape)
    (last : Call) : Prop where
  answer : State.answer p (lines.map Value.ofTyped) call =
    (v.call p last, rest.map Value.ofTyped)
  consistent : v.Consistent p
  admits : v.admits last = true
  rest_eq_nil : (v.call p last).1 = .ok .input → rest = []
  drive : ∀ n, Progress.drive (n + k) lines (s.after call) =
    Progress.drive n rest (s.after (v.call p last))

/-- The induction is on the typed lines: each suspension leaves fewer inputs to ask for. -/
theorem Session.exists_answered {p : Program} {s : Session} (hp : s.program = p) {u : State Tape}
    (hu : u.Consistent p) {c : Call} (hc : u.admits c = true) (lines : List String) :
    ∃ k rest v last, k ≤ u.toAsk p ∧ s.Answered p lines (u.call p c) k rest v last := by
  subst hp
  induction lines generalizing u c with
  | nil => exact ⟨0, [], u, c, Nat.zero_le _, rfl, hu, hc, fun _ => rfl, fun _ => rfl⟩
  | cons line lines ih =>
    by_cases hd : (u.call s.program c).1 = .ok .input
    · have hwait : (u.call s.program c).2.admits (.enter (.ofTyped line)) = true :=
        beq_iff_eq.2 ((State.status_of_admitted hu hc).2 hd)
      have hcall : u.call s.program c = (.ok .input, (u.call s.program c).2) := by rw [← hd]
      obtain ⟨k, rest, v, last, hk, h⟩ := ih hwait (hu.call c)
      refine ⟨k + 1, rest, v, last, Nat.lt_of_le_of_lt hk (hu.toAsk_lt hc hd), ?_, h.consistent,
        h.admits, h.rest_eq_nil, ?_⟩
      · rw [← h.answer, hcall]
        rfl
      · intro n
        rw [← h.drive n, ← s.after_with_state (u.call s.program c).2, hcall]
        rfl
    · refine ⟨0, line :: lines, u, c, Nat.zero_le _, ?_, hu, hc, fun h => absurd h hd, fun _ => rfl⟩
      exact State.answer_of_ne_input s.program _ hd

theorem Session.Sound.drive_succ {p : Program} {limit : Nat} {s : Session} (h : s.Sound p limit)
    (n : Nat) (lines : List String) :
    Progress.drive (n + 1) lines (.running s) =
      if s.steps < limit then Progress.drive n lines (s.after (s.state.call p .step))
      else s.close := by
  rw [Progress.drive_succ, Progress.call?, h.atLimit_eq, ← h.program]
  by_cases hlt : s.steps < limit
  · rw [if_pos hlt, decide_eq_false (Nat.not_le.2 hlt)]
    rfl
  · rw [if_neg hlt, decide_eq_true (Nat.not_lt.1 hlt)]
    rfl

namespace Run

variable {δ : Type} [Device δ]

theorem extend_of_stepped {p : Program} {r : Run δ} {u : State δ}
    (h : r.state.step p = (.ok .stepped, u)) (n : Nat) :
    ∃ q : Run δ, extend p (n + 1) r = extend p n q ∧ q.state = u ∧ q.event = .ok .stepped ∧
      q.steps = r.steps + 1 := by
  obtain ⟨state, event, steps, visited, messages⟩ := r
  simp only [extend, h]
  exact ⟨_, rfl, rfl, rfl, rfl⟩

theorem extend_of_ne_stepped {p : Program} {r : Run δ} {event : Except Diagnostic Event}
    {u : State δ} (h : r.state.step p = (event, u)) (hne : event ≠ .ok .stepped) (n : Nat) :
    (extend p (n + 1) r).state = u ∧ (extend p (n + 1) r).event = event ∧
      (extend p (n + 1) r).steps = r.steps := by
  obtain ⟨state, last, steps, visited, messages⟩ := r
  simp only [extend, h, and_self]

end Run

def Farewell.ofEvent : Except Diagnostic Event → Farewell
  | .error d => ⟨1, some d.message⟩
  | .ok _ => ⟨0, none⟩

theorem Session.drive_last (s : Session) {event : Except Diagnostic Event} {u : State Tape}
    {lines : List String} (hstepped : event ≠ .ok .stepped) (hwaiting : event ≠ .ok .waiting)
    (hinput : event = .ok .input → lines = []) {n : Nat} (hn : 0 < n) :
    Progress.drive n lines (s.after (event, u)) =
      .finished { s with state := u } (.ofEvent event) := by
  obtain ⟨n, rfl⟩ := Nat.exists_eq_succ_of_ne_zero (Nat.ne_of_gt hn)
  match event with
  | .ok .stepped => exact absurd rfl hstepped
  | .ok .waiting => exact absurd rfl hwaiting
  | .ok .input =>
    obtain rfl := hinput rfl
    rfl
  | .error d => exact Progress.drive_finished _ lines _ _

/-- A session ends as a run ends that has the lines on its tape. The induction is on the steps that
are left; in each of them both machines have read and written the same. -/
theorem Session.Sound.drive_running {p : Program} {limit m : Nat} {s : Session}
    (h : s.Sound p limit) (hready : s.state.status = .ready) (hm : s.steps + m = limit)
    (hp : s.state.device.pending = []) {lines : List String} {r : Run Tape}
    (hstate : r.state = s.state.supplied (lines.map Value.ofTyped))
    (hevent : r.event = .ok .stepped) (hsteps : r.steps = s.steps) :
    ∃ t : Session, (∀ n, 3 * m < n → Progress.drive n lines (.running s) =
        .finished t (.ofEvent (r.extend p m).event)) ∧
      t.state.device.printed = (r.extend p m).state.device.printed ∧
      t.steps = (r.extend p m).steps := by
  induction m generalizing s lines r with
  | zero =>
    refine ⟨s, ?_, ?_, ?_⟩
    · intro n hn
      obtain ⟨n, rfl⟩ := Nat.exists_eq_succ_of_ne_zero (Nat.ne_of_gt hn)
      rw [h.drive_succ, if_neg (by omega), Run.extend, hevent]
      rfl
    · rw [Run.extend, hstate]
      rfl
    · rw [Run.extend, hsteps]
  | succ m ih =>
    have hlt : s.steps < limit := by omega
    obtain ⟨k, rest, v, last, hk, ha⟩ :=
      exists_answered h.program h.consistent (c := .step) (beq_iff_eq.2 hready) lines
    obtain ⟨hstep, hpending⟩ := State.agrees_step p s.state (lines.map Value.ofTyped) hp
    have hattend : s.state.attend p (lines.map Value.ofTyped) = _ := ha.answer
    rw [hattend, ← hstate] at hstep
    rw [hattend] at hpending
    have hturns : ∀ n, 3 * (m + 1) < n → ∃ n', 3 * m < n' ∧
        Progress.drive n lines (.running s) = Progress.drive n' rest (s.after (v.call p last)) := by
      intro n hn
      have htwo := State.toAsk_le hready p
      obtain ⟨n', rfl⟩ : ∃ n', n = n' + k + 1 := ⟨n - k - 1, by omega⟩
      exact ⟨n', by omega, by rw [h.drive_succ, if_pos hlt, ha.drive]⟩
    have hsound := h.after ha.consistent ha.admits hlt
    have hwaiting := State.call_fst_ne_waiting (p := p) ha.admits
    have hnil := ha.rest_eq_nil
    generalize v.call p last = call at hstep hpending hturns hsound hwaiting hnil
    obtain ⟨event, u⟩ := call
    by_cases hd : event = .ok .stepped
    · subst hd
      obtain ⟨q, hextend, hq, hqevent, hqsteps⟩ := Run.extend_of_stepped hstep m
      cases hsound with
      | running hsound hready =>
        obtain ⟨t, hdrive, hprinted, hcount⟩ :=
          ih hsound hready (by simp only; omega) hpending hq hqevent (by rw [hqsteps, hsteps])
        rw [hextend]
        refine ⟨t, ?_, hprinted, hcount⟩
        intro n hn
        obtain ⟨n', hn', hturn⟩ := hturns n hn
        rw [hturn, ← hdrive n' hn']
        rfl
    · obtain ⟨hrun, hrunEvent, hrunSteps⟩ := Run.extend_of_ne_stepped hstep hd m
      refine ⟨{ s with state := u }, ?_, ?_, ?_⟩
      · intro n hn
        obtain ⟨n', hn', hturn⟩ := hturns n hn
        rw [hturn, hrunEvent, s.drive_last hd hwaiting hnil (by omega)]
      · rw [hrun]
        rfl
      · rw [hrunSteps, hsteps]

theorem Session.sound_boot (p : Program) (generator : Generator) (limit : Nat) :
    (boot p generator (some limit)).Sound p limit :=
  ⟨rfl, rfl, rfl, Nat.zero_le _⟩

/-- Of the turns of a session, three for each step are enough. -/
theorem Session.exists_ending (p : Program) (generator : Generator) (lines : List String)
    (limit : Nat) :
    let run := Run.ofSteps p limit (.boot generator (Tape.ofList (lines.map Value.ofTyped)))
    ∃ s : Session, (∀ n, 3 * limit < n →
        Progress.drive n lines (.running (.boot p generator (some limit))) =
          .finished s (.ofEvent run.event)) ∧
      s.printed = run.state.device.printed.toList.map Value.display ∧ s.steps = run.steps := by
  intro run
  obtain ⟨s, hdrive, hprinted, hsteps⟩ :=
    (sound_boot p generator limit).drive_running rfl (Nat.zero_add limit) rfl
      (r := .start (.boot generator (Tape.ofList (lines.map Value.ofTyped)))) rfl rfl rfl
  exact ⟨s, hdrive, by rw [printed, hprinted]; rfl, hsteps⟩

/-! ### Sessions without a limit -/

namespace Session

def withLimit (limit : Option Nat) (s : Session) : Session := { s with limit }

structure Precedes (s t : Session) : Prop where
  limit : t.limit = s.limit
  steps : s.steps ≤ t.steps

theorem Precedes.trans {s t u : Session} (h : s.Precedes t) (h' : t.Precedes u) : s.Precedes u :=
  ⟨h'.limit.trans h.limit, Nat.le_trans h.steps h'.steps⟩

theorem Precedes.withLimit {s t : Session} (h : s.Precedes t) (limit : Option Nat) :
    (s.withLimit limit).Precedes (t.withLimit limit) :=
  ⟨rfl, h.steps⟩

theorem Precedes.atLimit_eq_false {s t : Session} (h : s.Precedes t) (ht : t.atLimit = false) :
    s.atLimit = false := by
  unfold atLimit at ht ⊢
  rw [h.limit] at ht
  cases hl : s.limit with
  | none => rfl
  | some limit =>
    simp only [hl, decide_eq_false_iff_not, Nat.not_le] at ht ⊢
    exact Nat.lt_of_le_of_lt h.steps ht

theorem precedes_after (s : Session) (call : Except Diagnostic Event × State Tape) :
    s.Precedes (s.after call).session := by
  unfold after
  split
  · exact ⟨rfl, Nat.le_refl _⟩
  · exact ⟨rfl, Nat.le_succ _⟩
  · exact ⟨rfl, Nat.le_refl _⟩

end Session

namespace Progress

def withLimit (limit : Option Nat) : Progress → Progress
  | .running s => .running (s.withLimit limit)
  | .asking s => .asking (s.withLimit limit)
  | .finished s f => .finished (s.withLimit limit) f

end Progress

theorem Session.after_withLimit (s : Session) (limit : Option Nat)
    (call : Except Diagnostic Event × State Tape) :
    (s.withLimit limit).after call = (s.after call).withLimit limit := by
  unfold after
  split <;> rfl

namespace Progress

variable {limit : Option Nat} {progress : Progress}

theorem session_withLimit (limit : Option Nat) (progress : Progress) :
    (progress.withLimit limit).session = progress.session.withLimit limit := by
  cases progress <;> rfl

theorem ended_withLimit (limit : Option Nat) (progress : Progress) :
    (progress.withLimit limit).ended = progress.ended.withLimit limit := by
  cases progress <;> rfl

theorem advance_withLimit (limit : Option Nat) (progress : Progress) (c : Call) :
    (progress.withLimit limit).advance c = (progress.advance c).withLimit limit := by
  rw [advance, advance, session_withLimit]
  exact progress.session.after_withLimit limit _

theorem call?_withLimit {lines : List String} (h : progress.session.atLimit = false)
    (h' : (progress.session.withLimit limit).atLimit = false) :
    (progress.withLimit limit).call? lines = progress.call? lines := by
  cases progress with
  | running s =>
    dsimp only [session] at h h'
    rw [withLimit, call?, call?, h, h']
  | asking s => rfl
  | finished s f => rfl

theorem precedes_drive (n : Nat) (lines : List String) (progress : Progress) :
    progress.session.Precedes (drive n lines progress).session := by
  induction n generalizing lines progress with
  | zero => exact ⟨rfl, Nat.le_refl _⟩
  | succ n ih =>
    rw [drive_succ]
    split
    · rw [session_ended]
      exact ⟨rfl, Nat.le_refl _⟩
    · rename_i c rest _
      exact (progress.session.precedes_after _).trans (ih rest (progress.advance c))

/-- As long as neither limit is reached, it makes no difference which one a session has. -/
theorem drive_withLimit (limit : Option Nat) {n : Nat} {lines : List String}
    (h : (drive n lines progress).session.atLimit = false)
    (h' : ((drive n lines progress).session.withLimit limit).atLimit = false) :
    drive n lines (progress.withLimit limit) = (drive n lines progress).withLimit limit := by
  induction n generalizing lines progress with
  | zero => rfl
  | succ n ih =>
    have hpast := precedes_drive (n + 1) lines progress
    have hcall : (progress.withLimit limit).call? lines = progress.call? lines :=
      call?_withLimit (hpast.atLimit_eq_false h) ((hpast.withLimit limit).atLimit_eq_false h')
    rw [drive_succ] at h h' ⊢
    rw [drive_succ, hcall]
    cases hc : progress.call? lines with
    | none => exact ended_withLimit limit progress
    | some next =>
      obtain ⟨c, rest⟩ := next
      rw [hc] at h h'
      dsimp only
      rw [advance_withLimit]
      exact ih h h'

theorem drive_withLimit_of_finished (limit : Option Nat) {n : Nat} {lines : List String}
    {s : Session} {f : Farewell} (h : drive n lines progress = .finished s f)
    (hs : s.atLimit = false) (hs' : (s.withLimit limit).atLimit = false) :
    drive n lines (progress.withLimit limit) = .finished (s.withLimit limit) f := by
  have hboth := drive_withLimit limit (by rw [h]; exact hs) (by rw [h]; exact hs')
  rw [h] at hboth
  exact hboth

theorem drive_of_finished {n m : Nat} {lines : List String} {s : Session} {f : Farewell}
    (h : drive n lines progress = .finished s f) (hle : n ≤ m) :
    drive m lines progress = .finished s f := by
  induction n generalizing m lines progress with
  | zero =>
    obtain rfl : progress = .finished s f := h
    exact drive_finished m lines s f
  | succ n ih =>
    obtain ⟨m, rfl⟩ : ∃ k, m = k + 1 := ⟨m - 1, by omega⟩
    rw [drive_succ] at h ⊢
    cases hc : progress.call? lines with
    | none =>
      rw [hc] at h
      exact h
    | some next =>
      obtain ⟨c, rest⟩ := next
      rw [hc] at h
      exact ih h (Nat.le_of_succ_le_succ hle)

end Progress

/-- A session without a limit ends after fewer steps than a given number exactly if a run of that
many steps stops before them, and then it ends like the run. -/
theorem unlimited_session_refines_run (p : Program) (generator : Generator) (lines : List String)
    (limit : Nat) :
    let start := Progress.running (.boot p generator none)
    let run := Run.ofSteps p limit (.boot generator (Tape.ofList (lines.map Value.ofTyped)))
    ((∃ n s f, start.drive n lines = .finished s f ∧ s.steps < limit) ↔ run.steps < limit) ∧
      (run.steps < limit → ∃ s : Session,
        (∀ n, 3 * limit < n → start.drive n lines = .finished s (.ofEvent run.event)) ∧
        s.printed = run.state.device.printed.toList.map Value.display ∧ s.steps = run.steps) := by
  intro start run
  obtain ⟨t, hdrive, hprinted, hsteps⟩ := Session.exists_ending p generator lines limit
  have hends : run.steps < limit → ∀ n, 3 * limit < n →
      start.drive n lines = .finished (t.withLimit none) (.ofEvent run.event) := by
    intro hlt n hn
    have hsound :=
      (Progress.Sound.running (Session.sound_boot p generator limit) rfl).drive n lines
    rw [hdrive n hn] at hsound
    have hbelow : t.atLimit = false :=
      hsound.session.atLimit_eq.trans (decide_eq_false (Nat.not_le.2 (hsteps ▸ hlt)))
    exact Progress.drive_withLimit_of_finished none (hdrive n hn) hbelow rfl
  refine ⟨⟨?_, ?_⟩, ?_⟩
  · rintro ⟨n, s, f, hfinished, hlt⟩
    have hfree : s.limit = none := by
      have hpast := (Progress.precedes_drive n lines start).limit
      rwa [hfinished] at hpast
    have hlimited := Progress.drive_withLimit_of_finished (some limit) hfinished
      (by rw [Session.atLimit, hfree]) (decide_eq_false (Nat.not_le.2 hlt))
    have hlate := Progress.drive_of_finished hlimited (Nat.le_max_left n (3 * limit + 1))
    have hlast := hdrive (max n (3 * limit + 1)) (Nat.le_max_right n (3 * limit + 1))
    cases hlast.symm.trans hlate
    exact hsteps ▸ hlt
  · intro hlt
    exact ⟨_, _, _, hends hlt (3 * limit + 1) (Nat.lt_succ_self _), hsteps ▸ hlt⟩
  · intro hlt
    exact ⟨t.withLimit none, hends hlt, hprinted, hsteps⟩

theorem readSource_toUTF8 (source : String) :
    readSource (some source.toUTF8) =
      (Program.load source).mapError fun d => ⟨1, some d.message⟩ := by
  have hdecode : String.fromUTF8? source.toUTF8 = some source := dif_pos source.isValidUTF8
  rw [readSource, Option.bind_some, hdecode]
  dsimp only
  cases Program.load source <;> rfl

/-- A source that cannot be read ends the session with a report. Else the session ends as a run ends
that has the typed lines on its tape: it has printed the same values and completed as many steps,
and it reports the fault of the run if there is one. On the way it steps the machine only when it is
ready, and for each step it enters at most two lines, in the order in which they were typed. It
counts an instruction when it is completed, and starts no more of them than the limit allows. -/
theorem session_refines_run (source : String) (generator : Generator) (limit : Nat)
    (lines : List String) :
    (∀ d, Program.load source = .error d →
      readSource (some source.toUTF8) = .error ⟨1, some d.message⟩) ∧
    ∀ p, Program.load source = .ok p →
      let start := Progress.running (.boot p generator (some limit))
      let run := Run.ofSteps p limit (.boot generator (Tape.ofList (lines.map Value.ofTyped)))
      readSource (some source.toUTF8) = .ok p ∧
      (∃ s : Session, (∀ n, 3 * limit < n → start.drive n lines = .finished s
          (match run.event with
          | .error d => ⟨1, some d.message⟩
          | .ok _ => ⟨0, none⟩)) ∧
        s.printed = run.state.device.printed.toList.map Value.display ∧ s.steps = run.steps) ∧
      ∀ n,
        let past := start.transcript n lines
        (start.drive n lines).session.state =
          served (State.serve p) start.session.state (past.map Exchange.request) ∧
        (start.drive n lines).session.steps = past.countP Exchange.completed ∧
        (start.drive n lines).session.steps ≤ limit ∧
        (∀ x ∈ past, x.request = .call .step →
          x.before.status = .ready ∧ x.answer ≠ some (.ok .waiting)) ∧
        ∃ groups : List (List String),
          past.map Exchange.request = (groups.flatMap Progress.instruction).map .call ∧
          groups.flatten <+: lines ∧ groups.length ≤ limit ∧ ∀ g ∈ groups, g.length ≤ 2 := by
  constructor
  · intro d hd
    rw [readSource_toUTF8, hd]
    rfl
  intro p hload start run
  have hstart : start.Sound p limit := .running (Session.sound_boot p generator limit) rfl
  refine ⟨by rw [readSource_toUTF8, hload]; rfl, ?_, ?_⟩
  · obtain ⟨t, hdrive, hprinted, hsteps⟩ := Session.exists_ending p generator lines limit
    refine ⟨t, ?_, hprinted, hsteps⟩
    intro n hn
    rw [hdrive n hn]
    change Progress.finished t (.ofEvent run.event) = _
    cases run.event <;> rfl
  · intro n past
    have hrequests : past.map Exchange.request = (start.calls n lines).map .call :=
      map_request_exchanges _ _
    have hsteps : (start.drive n lines).session.steps = past.countP Exchange.completed :=
      (hstart.steps_drive n lines).trans (Nat.zero_add _)
    refine ⟨?_, hsteps, (hstart.drive n lines).session.steps_le, ?_, ?_⟩
    · rw [hrequests]
      exact Progress.state_drive n lines start
    · intro x hx hstep
      obtain ⟨c, hc, hadmits, hwaiting⟩ := hstart.transcript n lines x hx
      obtain rfl : Call.step = c := Request.call.inj (hstep.symm.trans hc)
      exact ⟨beq_iff_eq.1 hadmits, hwaiting⟩
    · obtain ⟨entered, groups, hcalls, hlines, hnone, hroom, htwo⟩ := hstart.grouped n lines
      obtain rfl : entered = [] := List.eq_nil_of_length_eq_zero (Nat.le_zero.1 hnone)
      refine ⟨groups, ?_, hlines, hroom, htwo⟩
      rw [hrequests, hcalls]
      rfl

/-- An instruction that asks for two lines, and a source that cannot be read. -/
theorem session_refines_run_of_two_lines :
    let p := (Program.load "cat in in\nmov acc out").toOption.getD default
    (∃ s, (Progress.running (.boot p (.ofSeed 0) (some 2))).drive 7 ["a", "b", "c"] =
        .finished s ⟨0, none⟩ ∧ s.printed = ["ab"] ∧ s.steps = 2) ∧
      readSource (some "mov '".toUTF8) =
        .error ⟨1, some "SYNTAX ERROR IN 0; UNEXPECTED TOKEN '"⟩ := by
  intro p
  have hload : Program.load "cat in in\nmov acc out" = .ok p := by decide +kernel
  have hfault : Program.load "mov '" = .error ⟨.syntaxError, some 0, "UNEXPECTED TOKEN '"⟩ := by
    decide +kernel
  obtain ⟨-, ⟨s, hdrive, hprinted, hsteps⟩, -⟩ :=
    (session_refines_run "cat in in\nmov acc out" (.ofSeed 0) 2 ["a", "b", "c"]).2 p hload
  have hevent : (Run.ofSteps p 2 (.boot (.ofSeed 0)
      (Tape.ofList (["a", "b", "c"].map Value.ofTyped)))).event = .ok .stepped := by decide +kernel
  refine ⟨⟨s, ?_, ?_, ?_⟩, (session_refines_run "mov '" (.ofSeed 0) 2 []).1 _ hfault⟩
  · rw [hdrive 7 (by decide), hevent]
  · rw [hprinted]
    decide +kernel
  · rw [hsteps]
    decide +kernel

end LineAsm
