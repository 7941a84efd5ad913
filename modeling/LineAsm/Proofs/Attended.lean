import LineAsm.Proofs.Unfinished

set_option autoImplicit false

/-!
# Attended instructions

An attendant steps the machine and enters a value each time the instruction asks for one, as long as
there are values. Every request uses up a source of the line, so a line is over after as many
values as it has sources.
-/

namespace LineAsm.State

variable {δ : Type}

def inputsLeft (p : Program) (s : State δ) : Nat :=
  ((p.line s.pc).sources.drop s.log.length).countP fun operand =>
    operand.any fun t => t.kind == .input

theorem inputsLeft_le (p : Program) (s : State δ) :
    s.inputsLeft p ≤ (p.line s.pc).sourceCount .input :=
  (List.drop_sublist _ _).countP_le

variable [Device δ]

/-- Enters values for the requests of an instruction; gives the last report and the values left. -/
def answer (p : Program) : List Value → Except Diagnostic Event × State δ →
    (Except Diagnostic Event × State δ) × List Value
  | [], call => (call, [])
  | v :: vs, (.ok .input, s) => answer p vs (s.enter p v)
  | v :: vs, call => (call, v :: vs)

def attend (p : Program) (vs : List Value) (s : State δ) :
    (Except Diagnostic Event × State δ) × List Value :=
  answer p vs (s.step p)

theorem answer_of_ne_input (p : Program) (vs : List Value)
    {call : Except Diagnostic Event × State δ} (h : call.1 ≠ .ok .input) :
    answer p vs call = (call, vs) := by
  cases vs with
  | nil => rfl
  | cons v vs =>
    obtain ⟨event, s⟩ := call
    cases event with
    | error d => rfl
    | ok event =>
      cases event with
      | input => exact absurd rfl h
      | stepped | waiting => rfl

theorem Consistent.sources_of_suspended {p : Program} {s : State δ} {c : Call}
    (h : s.Consistent p) (hc : s.admits c = true) (hd : (s.call p c).1 = .ok .input) :
    (s.call p c).2.pc = s.pc ∧ (s.takenUp c).log.length ≤ (s.call p c).2.log.length ∧
      ∃ t rest, t.kind = .input ∧
        (p.line s.pc).sources.drop (s.call p c).2.log.length = some t :: rest := by
  obtain ⟨rs, r, ending, hlog, hl, he, heq⟩ := h.exists_ends hc
  rw [heq] at hd ⊢
  cases he with
  | completed _ | refused _ | failed _ | unreadable _ _ => cases hd
  | @suspended t next ht _ =>
    have hnew : (s.reached p c).log = (rs ++ s.readings p c).map Prod.snd := by
      rw [reached, afterReadings_log, ← hlog, List.map_append]
    refine ⟨(consumed_reached p s c).pc, ?_, ?_⟩
    · change _ ≤ (s.reached p c).log.length
      rw [hnew, ← hlog, List.length_map, List.length_map, List.length_append]
      exact Nat.le_add_right _ _
    · obtain ⟨rest, hsrc, tail, rfl, -⟩ := hl.follows ((p.line s.pc).plan_follows p.labels)
      refine ⟨t, tail, ht, ?_⟩
      change List.drop (s.reached p c).log.length _ = _
      rw [hsrc, hnew, List.length_map, ← List.length_map (f := fun x => some x.1), List.drop_left]

theorem Consistent.inputsLeft_lt {p : Program} {s : State δ} {c : Call} (h : s.Consistent p)
    (hc : s.admits c = true) (hd : (s.call p c).1 = .ok .input) (v : Value) :
    ((s.call p c).2.takenUp (.enter v)).inputsLeft p < (s.takenUp c).inputsLeft p := by
  obtain ⟨hpc, hlen, t, rest, ht, hdrop⟩ := h.sources_of_suspended hc hd
  have hlog : ((s.call p c).2.takenUp (.enter v)).log.length = (s.call p c).2.log.length + 1 :=
    List.length_append
  have hrest : (p.line s.pc).sources.drop ((s.call p c).2.log.length + 1) = rest := by
    rw [← List.drop_drop, hdrop]
    rfl
  unfold inputsLeft
  rw [takenUp_pc, hpc, takenUp_pc, hlog, hrest]
  calc rest.countP (fun operand => operand.any fun t => t.kind == .input)
      < (some t :: rest).countP fun operand => operand.any fun t => t.kind == .input := by
        rw [List.countP_cons_of_pos (by simp [ht])]
        exact Nat.lt_succ_self _
    _ = ((p.line s.pc).sources.drop (s.call p c).2.log.length).countP
          fun operand => operand.any fun t => t.kind == .input := by rw [hdrop]
    _ ≤ _ := (List.drop_sublist_drop_left _ hlen).countP_le

/-- With enough values the attendant comes to a call that is not suspended. The induction is on the
values: each suspension leaves fewer inputs to ask for. -/
theorem Consistent.exists_last_call {p : Program} {s : State δ} {c : Call} {vs : List Value}
    (h : s.Consistent p) (hc : s.admits c = true) (hvs : (s.takenUp c).inputsLeft p ≤ vs.length) :
    ∃ (u : State δ) (k : Call), u.Consistent p ∧ u.admits k = true ∧ u.pc = s.pc ∧
      (answer p vs (s.call p c)).1 = u.call p k ∧ (u.call p k).1 ≠ .ok .input := by
  induction vs generalizing s c with
  | nil =>
    refine ⟨s, c, h, hc, rfl, rfl, ?_⟩
    intro hd
    exact absurd (Nat.lt_of_lt_of_le (h.inputsLeft_lt hc hd default) hvs) (Nat.not_lt_zero _)
  | cons v vs ih =>
    by_cases hd : (s.call p c).1 = .ok .input
    · have hlt := Nat.lt_of_lt_of_le (h.inputsLeft_lt hc hd v) hvs
      have hwait : (s.call p c).2.admits (.enter v) = true := by
        rw [h.suspended_call hd]
        rfl
      obtain ⟨u, k, hu, hk, hpc, hans, hne⟩ :=
        ih (h.call c) hwait (Nat.le_of_lt_succ hlt)
      refine ⟨u, k, hu, hk, hpc.trans (h.sources_of_suspended hc hd).1, ?_, hne⟩
      rw [← hans, ← Prod.eta (s.call p c), hd]
      rfl
    · refine ⟨s, c, h, hc, rfl, ?_, hd⟩
      rw [answer_of_ne_input p (v :: vs) hd]

end LineAsm.State
