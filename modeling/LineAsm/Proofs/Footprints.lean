import LineAsm.Proofs.Cells
import LineAsm.Proofs.Residues
import LineAsm.Proofs.Suspension

set_option autoImplicit false

/-!
# What an instruction changes

An instruction that completes has read its sources, each of them once, and then had one effect.
What reading takes away is `Consumed`; an effect changes what stands behind its destination, the
call stack or the program counter. Together they leave the footprint of the instruction, which is
seen from its line.
-/

namespace LineAsm

variable {δ : Type}

theorem Memory.contents_congr {m n : Memory} (h : m.cells = n.cells) : m.contents = n.contents := by
  funext a
  rw [contents_eq, contents_eq, h]

/-! ### The destination of an effect -/

/-- The part of the machine that an effect writes. -/
def Effect.destination? : Effect → Option TokenKind
  | .setRegister r _ => some (.register r)
  | .slice _ _ => some (.register .acc)
  | .output _ => some .output
  | .setAddress _ => some .address
  | .store _ => some .memory
  | .push _ => some .push
  | _ => none

def Effect.redirects : Effect → Bool
  | .skipUnless _ => true
  | .jump _ => true
  | .jumpBy _ => true
  | .call _ => true
  | .return => true
  | _ => false

namespace Opcode

def accumulates : Opcode → Bool
  | .toNumber => true
  | .toText => true
  | .concat => true
  | .slice => true
  | .binary _ => true
  | .unary _ => true
  | .length => true
  | _ => false

def redirects (op : Opcode) : Bool :=
  op.isTest || op == .jump || op == .jumpBy || op == .call || op == .return

theorem destination_of_allows {op : Opcode} {e : Effect} {k : TokenKind}
    (h : op.allows e = true) (hk : e.destination? = some k) :
    op = .move ∨ k = .register .acc ∧ op.accumulates = true := by
  cases e with
  | setRegister r v =>
    cases hk
    cases op <;> first
      | exact .inl rfl
      | (cases r <;> first | exact .inr ⟨rfl, rfl⟩ | cases h)
  | slice start stop =>
    cases hk
    cases op <;> first | exact .inr ⟨rfl, rfl⟩ | cases h
  | output v | setAddress a | store v | push v => cases op <;> first | exact .inl rfl | cases h
  | _ => cases hk

theorem redirects_of_allows {op : Opcode} {e : Effect} (h : op.allows e = true)
    (he : e.redirects = true) : op.redirects = true := by
  cases e with
  | skipUnless test => rw [redirects, isTest_of_allows h, Bool.true_or]; rfl
  | jump position => rw [eq_jump_of_allows h]; rfl
  | jumpBy offset => rw [eq_jumpBy_of_allows h]; rfl
  | call position => rw [eq_call_of_allows h]; rfl
  | «return» => rw [eq_return_of_allows h]; rfl
  | _ => cases he

end Opcode

/-- What a write to a destination leaves alone. -/
structure KeepsRest (k : Option TokenKind) (s u : State δ) : Prop where
  registers : ∀ r, k ≠ some (.register r) → u.registers.get r = s.registers.get r
  cells : k ≠ some .memory → u.memory.cells = s.memory.cells
  address : k ≠ some .address → u.memory.address = s.memory.address
  values : k ≠ some .push → u.memory.stack = s.memory.stack
  device : k ≠ some .output → u.device = s.device

theorem KeepsRest.set (r : Register) (v : Value) (s : State δ) :
    KeepsRest (some (.register r)) s { s with registers := s.registers.set r v } where
  registers q h := by
    have hne : q ≠ r := fun hq => h (by rw [hq])
    exact (Registers.get_set _ _ _ _).trans (if_neg hne)
  cells _ := rfl
  address _ := rfl
  values _ := rfl
  device _ := rfl

namespace Effect

variable [Device δ]

theorem exists_apply_eq {e : Effect} (h : e.destination? = none) (p : Program) (s : State δ) :
    ∃ pc calls, e.apply p s = { s with pc := pc, calls := calls } := by
  cases e with
  | nothing => exact ⟨s.pc, s.calls, rfl⟩
  | skipUnless test =>
    cases test with
    | true => exact ⟨s.pc, s.calls, rfl⟩
    | false => exact ⟨p.nextIndex s.pc, s.calls, rfl⟩
  | jump position => exact ⟨p.wrap position, s.calls, rfl⟩
  | jumpBy offset => exact ⟨p.wrap (relative s.pc offset), s.calls, rfl⟩
  | call position => exact ⟨p.wrap position, s.calls.add s.pc, rfl⟩
  | «return» => exact ⟨s.calls.top?.getD s.pc, s.calls.drop, rfl⟩
  | _ => cases h

theorem keepsRest_apply (e : Effect) (p : Program) (s : State δ) :
    KeepsRest e.destination? s (e.apply p s) := by
  cases hd : e.destination? with
  | none =>
    obtain ⟨pc, calls, heq⟩ := exists_apply_eq hd p s
    rw [heq]
    exact ⟨fun _ _ => rfl, fun _ => rfl, fun _ => rfl, fun _ => rfl, fun _ => rfl⟩
  | some k =>
    cases e with
    | setRegister r v =>
      cases hd
      exact .set r v s
    | slice start stop =>
      cases hd
      exact .set .acc _ s
    | output v =>
      cases hd
      exact ⟨fun _ _ => rfl, fun _ => rfl, fun _ => rfl, fun _ => rfl, fun h => absurd rfl h⟩
    | setAddress a =>
      cases hd
      exact ⟨fun _ _ => rfl, fun _ => rfl, fun h => absurd rfl h, fun _ => rfl, fun _ => rfl⟩
    | store v =>
      cases hd
      exact ⟨fun _ _ => rfl, fun h => absurd rfl h, fun _ => rfl, fun _ => rfl, fun _ => rfl⟩
    | push v =>
      cases hd
      exact ⟨fun _ _ => rfl, fun _ => rfl, fun _ => rfl, fun h => absurd rfl h, fun _ => rfl⟩
    | _ => cases hd

theorem pc_apply {e : Effect} (h : e.redirects = false) (p : Program) (s : State δ) :
    (e.apply p s).pc = s.pc := by
  cases e with
  | skipUnless test | jump position | jumpBy offset | call position | «return» => cases h
  | _ => rfl

end Effect

/-! ### From a line to its effect -/

theorem Plan.Leads.of_write {b : Option Token} {v : Value} {rs : List (Token × Value)} {r : Plan}
    (h : (Plan.write b v).Leads rs r) : rs = [] ∧ r = Plan.write b v := by
  have hasks := Plan.asks_write b v
  generalize Plan.write b v = q at h hasks
  cases h with
  | refl => exact ⟨rfl, rfl⟩
  | read _ _ => cases hasks

theorem Plan.write_destination {b : Option Token} {v : Value} {e : Effect} {k : TokenKind}
    (h : Plan.write b v = .done e) (hk : e.destination? = some k) : b.map Token.kind = some k := by
  cases b with
  | none => cases h
  | some t =>
    obtain ⟨kind, text, line⟩ := t
    cases kind with
    | address =>
      unfold write at h
      cases hv : v.toAddress with
      | ok a =>
        simp only [hv] at h
        cases h
        exact hk
      | error f =>
        simp only [hv] at h
        cases h
    | output | register | memory | push =>
      cases h
      exact hk
    | void =>
      cases h
      cases hk
    | _ => cases h

namespace Line

variable {labels : Labels} {l : Line} {rs : List (Token × Value)} {e : Effect}

instance (l : Line) (k : TokenKind) : Decidable (l.MovesTo k) :=
  inferInstanceAs (Decidable (_ ∧ _))

def accumulates (l : Line) : Bool :=
  match l.head.kind with
  | .opcode op => op.accumulates
  | _ => false

def redirects (l : Line) : Bool :=
  match l.head.kind with
  | .opcode op => op.redirects
  | _ => false

/-- The way through the plan of a move: its source, then what its destination makes of the value. -/
theorem write_of_leads (h : (l.plan labels).Leads rs (.done e))
    (hop : l.head.kind = .opcode .move) :
    ∃ t v, l.operands[0]? = some t ∧ rs = [(t, v)] ∧ Plan.write l.operands[1]? v = .done e := by
  have hplan : l.plan labels = .read l.operands[0]? (Plan.write l.operands[1]?) := by
    simp only [plan, hop, Plan.ofOpcode]
  rw [hplan] at h
  obtain ⟨t, v, us, ht, rfl, htail⟩ := h.of_read
  obtain ⟨rfl, hdone⟩ := htail.of_write
  exact ⟨t, v, ht, rfl, hdone.symm⟩

/-- The line can come to the effect, which is that of its destination on `v` if it is a move. -/
structure Causes (l : Line) (v : Value) (e : Effect) : Prop where
  allows : l.allows e = true
  write : l.head.kind = .opcode .move → Plan.write l.operands[1]? v = .done e

theorem exists_causes (h : (l.plan labels).Leads rs (.done e)) :
    ∃ v, l.Causes v e ∧
      (l.head.kind = .opcode .move → ∃ t, l.operands[0]? = some t ∧ rs = [(t, v)]) := by
  by_cases hop : l.head.kind = .opcode .move
  · obtain ⟨t, v, ht, hrs, hw⟩ := write_of_leads h hop
    exact ⟨v, ⟨allows_of_leads h, fun _ => hw⟩, fun _ => ⟨t, ht, hrs⟩⟩
  · exact ⟨.blank, ⟨allows_of_leads h, fun hmove => absurd hmove hop⟩,
      fun hmove => absurd hmove hop⟩

end Line

namespace Line.Causes

variable {l : Line} {v : Value} {e : Effect} (h : l.Causes v e)
include h

theorem write_of_movesTo {k : TokenKind} (hk : l.MovesTo k) :
    ∃ text line, Plan.write (some ⟨k, text, line⟩) v = .done e := by
  obtain ⟨t, ht, rfl⟩ := Option.map_eq_some_iff.1 hk.2
  exact ⟨t.text, t.line, by rw [← h.write hk.1, ht]⟩

theorem destination_ne {k : TokenKind} (hk : ¬ l.MovesTo k)
    (hacc : k ≠ .register .acc ∨ l.accumulates = false) : e.destination? ≠ some k := by
  intro hd
  obtain ⟨op, hop, hallows⟩ := opcode_of_allows h.allows (by rintro rfl; cases hd)
  rcases Opcode.destination_of_allows hallows hd with rfl | ⟨rfl, htrue⟩
  · exact hk ⟨hop, Plan.write_destination (h.write hop) hd⟩
  · rcases hacc with hne | hfalse
    · exact hne rfl
    · rw [accumulates, hop] at hfalse
      exact Bool.false_ne_true (hfalse.symm.trans htrue)

theorem redirects_eq_false (hl : l.redirects = false) : e.redirects = false := by
  by_contra hne
  have he : e.redirects = true := by simpa using hne
  obtain ⟨op, hop, hallows⟩ := opcode_of_allows h.allows (by rintro rfl; cases he)
  rw [redirects, hop] at hl
  exact Bool.false_ne_true (hl.symm.trans (Opcode.redirects_of_allows hallows he))

variable [Device δ] (p : Program) (s : State δ)

theorem get_registers (r : Register) (hr : r ≠ .acc ∨ l.accumulates = false) :
    (e.apply p s).registers.get r = if l.MovesTo (.register r) then v else s.registers.get r := by
  by_cases hk : l.MovesTo (.register r)
  · obtain ⟨text, line, hw⟩ := h.write_of_movesTo hk
    cases hw
    rw [if_pos hk]
    exact (Registers.get_set _ _ _ _).trans (if_pos rfl)
  · rw [if_neg hk]
    exact (e.keepsRest_apply p s).registers r
      (h.destination_ne hk (hr.imp_left fun hne heq => hne (TokenKind.register.inj heq)))

theorem cells : if l.MovesTo .memory then
      (e.apply p s).memory.cells.size = max s.memory.cells.size (s.memory.address + 1) ∧
        (e.apply p s).memory.contents = Function.update s.memory.contents s.memory.address v
    else (e.apply p s).memory.cells = s.memory.cells := by
  by_cases hk : l.MovesTo .memory
  · obtain ⟨text, line, hw⟩ := h.write_of_movesTo hk
    cases hw
    rw [if_pos hk]
    exact ⟨s.memory.size_cells_put v, s.memory.contents_put v⟩
  · rw [if_neg hk]
    exact (e.keepsRest_apply p s).cells (h.destination_ne hk (.inl (by decide)))

theorem address : if l.MovesTo .address then v.toAddress = .ok (e.apply p s).memory.address
    else (e.apply p s).memory.address = s.memory.address := by
  by_cases hk : l.MovesTo .address
  · obtain ⟨text, line, hw⟩ := h.write_of_movesTo hk
    rw [if_pos hk]
    cases hv : v.toAddress with
    | ok a =>
      simp only [Plan.write, hv] at hw
      cases hw
      rfl
    | error f =>
      simp only [Plan.write, hv] at hw
      cases hw
  · rw [if_neg hk]
    exact (e.keepsRest_apply p s).address (h.destination_ne hk (.inl (by decide)))

theorem device : (e.apply p s).device =
    if l.MovesTo .output then Device.emit v s.device else s.device := by
  by_cases hk : l.MovesTo .output
  · obtain ⟨text, line, hw⟩ := h.write_of_movesTo hk
    cases hw
    rw [if_pos hk]
    rfl
  · rw [if_neg hk]
    exact (e.keepsRest_apply p s).device (h.destination_ne hk (.inl (by decide)))

theorem values : (e.apply p s).memory.stack =
    if l.MovesTo .push then s.memory.stack.add v else s.memory.stack := by
  by_cases hk : l.MovesTo .push
  · obtain ⟨text, line, hw⟩ := h.write_of_movesTo hk
    cases hw
    rw [if_pos hk]
    rfl
  · rw [if_neg hk]
    exact (e.keepsRest_apply p s).values (h.destination_ne hk (.inl (by decide)))

theorem calls_of_call (hop : l.head.kind = .opcode .call) :
    (e.apply p s).calls = s.calls.add s.pc := by
  have hallows := h.allows
  rw [Line.allows, hop] at hallows
  rw [e.calls_apply]
  cases e with
  | call position => rfl
  | _ => cases hallows

theorem calls_of_return (hop : l.head.kind = .opcode .return) (hfault : e.fault? s = none) :
    ∃ i, s.calls = (e.apply p s).calls.add i := by
  have hallows := h.allows
  rw [Line.allows, hop] at hallows
  rw [e.calls_apply]
  cases e with
  | «return» =>
    cases htop : s.calls.top? with
    | none => simp [Effect.fault?, (Stack.top?_eq_none_iff s.calls).1 htop] at hfault
    | some i => exact ⟨i, (Stack.add_drop_of_top? htop).symm⟩
  | _ => cases hallows

theorem calls_of_ne (hcall : l.head.kind ≠ .opcode .call)
    (hreturn : l.head.kind ≠ .opcode .return) : (e.apply p s).calls = s.calls := by
  rw [e.calls_apply]
  cases e with
  | call position =>
    obtain ⟨op, hop, hallows⟩ := opcode_of_allows h.allows (fun heq => nomatch heq)
    exact absurd (Opcode.eq_call_of_allows hallows ▸ hop) hcall
  | «return» =>
    obtain ⟨op, hop, hallows⟩ := opcode_of_allows h.allows (fun heq => nomatch heq)
    exact absurd (Opcode.eq_return_of_allows hallows ▸ hop) hreturn
  | _ => rfl

end Line.Causes

/-! ### From the first call to the last -/

section

variable [Device δ]

/-- The instruction begun in `s` has read the given operands and got to `w`, where `q` is left. -/
structure Advanced (p : Program) (s : State δ) (rs : List (Token × Value)) (q : Plan)
    (w : State δ) : Prop where
  leads : (s.plan p).Leads rs q
  log : rs.map Prod.snd = w.log
  consumed : Consumed (countKind .pop rs) (countKind .random rs) (countKind .input rs) s w
  status : w.status = .ready

theorem countKind_append (k : TokenKind) (rs us : List (Token × Value)) :
    countKind k (rs ++ us) = countKind k rs + countKind k us := List.countP_append

theorem Plan.value?_of_head?_readings {q : Plan} {w : State δ} {r : Token × Value}
    (h : (q.readings w).head? = some r) : w.value? r.1 = some r.2 := by
  unfold readings at h
  split at h
  · cases h
  · cases h
  · cases h
  · split at h
    · cases h
      assumption
    · cases h

namespace Advanced

variable {p : Program} {s w : State δ} {rs : List (Token × Value)} {q : Plan}

theorem pc (h : Advanced p s rs q w) : w.pc = s.pc := h.consumed.pc

theorem dispatch_eq (h : Advanced p s rs q w) :
    w.dispatch p = (q.run p [] w).report p s.pc := by
  have hplan : w.plan p = s.plan p := by rw [State.plan, h.pc, State.plan]
  rw [State.dispatch_eq_report, Plan.run_eq_run_residue, ← h.log, hplan, h.leads.residue_eq, h.pc]

theorem read (h : Advanced p s rs q w) {r : Plan} (hr : q.Leads (q.readings w) r) :
    Advanced p s (rs ++ q.readings w) r (w.afterReadings (q.readings w)) where
  leads := h.leads.trans hr
  log := by rw [List.map_append, h.log, State.afterReadings_log]
  consumed := by
    simp only [countKind_append]
    exact h.consumed.trans (.afterReadings q w)
  status := (State.afterReadings_status w _).trans h.status

/-- A suspension costs a request to the device; the entered value stands for the operand. -/
theorem enter {t : Token} {next : Value → Plan} (h : Advanced p s rs (.read (some t) next) w)
    (ht : t.kind = .input) (v : Value) :
    Advanced p s (rs ++ [(t, v)]) (next v)
      (({ w.consume .input with status := .waiting } : State δ).takenUp (.enter v)) where
  leads := h.leads.trans (.read (by rw [ht]; rfl) (.refl _))
  log := by
    rw [List.map_append, h.log]
    rfl
  consumed := by
    have hrequest : Consumed 0 0 1 w
        (({ w.consume .input with status := .waiting } : State δ).takenUp (.enter v)) :=
      ⟨rfl, rfl, rfl, rfl, rfl, rfl, ⟨#[], Array.append_empty.symm, rfl⟩, rfl, rfl, rfl⟩
    simp only [countKind_append, countKind_cons, ht]
    exact h.consumed.trans hrequest
  status := rfl

theorem value_of_head? {t : Token} {v : Value} {vs : List Value} {us : List (Token × Value)}
    (h : (w.afterReadings (q.readings w)).value? t = none) {r : Token × Value}
    (hr : (q.readings w ++ (t, v) :: us).head? = some r) :
    (w.value? r.1).or (v :: vs).head? = some r.2 := by
  cases hreadings : q.readings w with
  | nil =>
    rw [hreadings] at h hr
    cases hr
    change w.value? t = none at h
    rw [h]
    rfl
  | cons x xs =>
    rw [hreadings] at hr
    cases hr
    rw [Plan.value?_of_head?_readings (by rw [hreadings]; rfl)]
    rfl

theorem exists_effect_of_stepped (h : Advanced p s rs q w) (vs : List Value)
    (hd : (w.dispatch p).1 = .ok .stepped) :
    ∃ us e x, Advanced p s (rs ++ us) (.done e) x ∧ e.fault? x = none ∧
      (∀ r, us.head? = some r → (w.value? r.1).or vs.head? = some r.2) ∧
      (w.dispatch p).2 = { (e.apply p x).settle with pc := p.following (e.apply p x).pc } := by
  obtain ⟨r, hr, he⟩ := q.exists_ends p w
  rw [h.dispatch_eq] at hd ⊢
  generalize q.run p [] w = ending at hd he ⊢
  cases he with
  | @completed e hfault =>
    refine ⟨q.readings w, e, _, h.read hr, hfault, ?_, rfl⟩
    intro r hhead
    rw [Plan.value?_of_head?_readings hhead]
    rfl
  | suspended _ _ | refused _ | failed _ | unreadable _ _ => cases hd

theorem exists_request_of_suspended (h : Advanced p s rs q w)
    (hd : (w.dispatch p).1 = .ok .input) :
    ∃ (t : Token) (next : Value → Plan), (w.afterReadings (q.readings w)).value? t = none ∧
      (∀ v, Advanced p s (rs ++ q.readings w ++ [(t, v)]) (next v)
        ((w.dispatch p).2.takenUp (.enter v))) ∧
      ∀ v, (w.dispatch p).2.enter p v = ((w.dispatch p).2.takenUp (.enter v)).dispatch p := by
  obtain ⟨r, hr, he⟩ := q.exists_ends p w
  rw [h.dispatch_eq] at hd ⊢
  generalize q.run p [] w = ending at hd he ⊢
  cases he with
  | @suspended t next ht hnone =>
    exact ⟨t, next, hnone, (h.read hr).enter ht, fun _ => rfl⟩
  | completed _ | refused _ | failed _ | unreadable _ _ => cases hd

/-- However often it is suspended, an instruction that completes has gone through its plan once,
and then had an effect. The induction is on the values at hand: each suspension takes one. -/
theorem exists_effect (h : Advanced p s rs q w) {vs : List Value}
    (hd : (State.answer p vs (w.dispatch p)).1.1 = .ok .stepped) :
    ∃ us e x, Advanced p s (rs ++ us) (.done e) x ∧ e.fault? x = none ∧
      (∀ r, us.head? = some r → (w.value? r.1).or vs.head? = some r.2) ∧
      (State.answer p vs (w.dispatch p)).1.2 =
        { (e.apply p x).settle with pc := p.following (e.apply p x).pc } := by
  induction vs generalizing w rs q with
  | nil => exact h.exists_effect_of_stepped [] hd
  | cons v vs ih =>
    by_cases hi : (w.dispatch p).1 = .ok .input
    · obtain ⟨t, next, hnone, hadv, henter⟩ := h.exists_request_of_suspended hi
      have hans : State.answer p (v :: vs) (w.dispatch p) =
          State.answer p vs (((w.dispatch p).2.takenUp (.enter v)).dispatch p) := by
        rw [← henter, ← Prod.eta (w.dispatch p), hi]
        rfl
      rw [hans] at hd ⊢
      obtain ⟨us, e, x, hx, hfault, -, heq⟩ := ih (hadv v) hd
      rw [List.append_assoc, List.append_assoc] at hx
      exact ⟨_, e, x, hx, hfault, fun r hr => value_of_head? hnone hr, heq⟩
    · rw [State.answer_of_ne_input p (v :: vs) hi] at hd ⊢
      exact h.exists_effect_of_stepped (v :: vs) hd

end Advanced

/-! ### The footprint -/

/-- What an instruction can have changed when it completes, from the state `s` that it was begun in
to the state `u` after it; `v` is the value that a move has read. -/
structure Footprint (p : Program) (l : Line) (v : Value) (s u : State δ) : Prop where
  general : ∀ n, u.registers.get (.general n) =
    if l.MovesTo (.register (.general n)) then v else s.registers.get (.general n)
  acc : l.accumulates = true ∨ u.registers.acc =
    if l.MovesTo (.register .acc) then v else s.registers.acc
  cells : if l.MovesTo .memory then
      u.memory.cells.size = max s.memory.cells.size (s.memory.address + 1) ∧
        u.memory.contents = Function.update s.memory.contents s.memory.address v
    else u.memory.cells = s.memory.cells
  address : if l.MovesTo .address then v.toAddress = .ok u.memory.address
    else u.memory.address = s.memory.address
  device : u.device =
    if l.MovesTo .output then
      Device.emit v (Device.requested (l.sourceCount .input) s.device)
    else Device.requested (l.sourceCount .input) s.device
  entered : l.head.kind = .opcode .call → u.calls = s.calls.add s.pc
  returned : l.head.kind = .opcode .return → ∃ i, s.calls = u.calls.add i
  calls : l.head.kind ≠ .opcode .call → l.head.kind ≠ .opcode .return → u.calls = s.calls
  values : ∃ kept taken : Array Value, s.memory.stack.items = kept ++ taken ∧
    taken.size = l.sourceCount .pop ∧
    u.memory.stack = ⟨s.memory.stack.name, if l.MovesTo .push then kept.push v else kept⟩
  generator : u.generator = ⟨s.generator.drawn + l.sourceCount .random, s.generator.key⟩
  pc : l.redirects = false → u.pc = p.following s.pc

theorem Advanced.footprint {p : Program} {s x : State δ} {rs : List (Token × Value)} {e : Effect}
    {v : Value} (h : Advanced p s rs (.done e) x) (hc : (p.line s.pc).Causes v e)
    (hfault : e.fault? x = none) :
    Footprint p (p.line s.pc) v s
      { (e.apply p x).settle with pc := p.following (e.apply p x).pc } := by
  have hread := h.consumed
  have hcount := Line.sourceCount_eq (State.sources_of_leads_done h.leads).1.symm
  constructor
  case general =>
    intro n
    rw [← hread.registers]
    exact hc.get_registers p x _ (.inl fun heq => nomatch heq)
  case acc =>
    rw [← hread.registers]
    cases hacc : (p.line s.pc).accumulates with
    | true => exact .inl rfl
    | false => exact .inr (hc.get_registers p x _ (.inr hacc))
  case cells =>
    rw [← hread.cells, ← hread.address, ← Memory.contents_congr hread.cells]
    exact hc.cells p x
  case address =>
    rw [← hread.address]
    exact hc.address p x
  case device =>
    rw [← hcount, ← hread.device]
    exact hc.device p x
  case entered =>
    intro hop
    rw [← hread.calls, ← hread.pc]
    exact hc.calls_of_call p x hop
  case returned =>
    intro hop
    rw [← hread.calls]
    exact hc.calls_of_return p x hop hfault
  case calls =>
    intro hcall hreturn
    rw [← hread.calls]
    exact hc.calls_of_ne p x hcall hreturn
  case values =>
    obtain ⟨taken, hitems, hsize⟩ := hread.stack
    refine ⟨x.memory.stack.items, taken, hitems, hsize.trans (hcount .pop), ?_⟩
    rw [← hread.stackName]
    refine (hc.values p x).trans ?_
    split <;> rfl
  case generator =>
    rw [← hread.key, ← hcount, ← hread.drawn]
    exact generator_apply e p x
  case pc =>
    intro hl
    rw [← hread.pc]
    exact congrArg p.following (Effect.pc_apply (hc.redirects_eq_false hl) p x)

/-- From its first call to its last, through any suspensions, an instruction that completes changes
what its footprint says, and a move moves the value of its source, entered if it has none yet. -/
theorem completed_instruction_footprint {p : Program} {s : State δ} {vs : List Value}
    (h : Reachable p s) (hd : (s.attend p vs).1.1 = .ok .stepped) :
    ∃ v, Footprint p (p.line s.pc) v s (s.attend p vs).1.2 ∧
      ((p.line s.pc).head.kind = .opcode .move →
        ((p.line s.pc).operands[0]?.bind s.value?).or vs.head? = some v) := by
  have hconsistent := h.consistent
  cases hs : s.status with
  | waiting =>
    have hwait : s.step p = (.ok .waiting, s) := by simp only [State.step, hs]
    rw [State.attend, hwait, State.answer_of_ne_input p vs (by intro heq; cases heq)] at hd
    cases hd
  | ready =>
    have hstep : s.step p = s.dispatch p := by simp only [State.step, hs]
    have hlog : s.log = [] := by simpa only [State.Consistent, hs] using hconsistent
    have hbegun : Advanced p s [] (s.plan p) s := ⟨.refl _, hlog.symm, .refl s, hs⟩
    rw [State.attend, hstep] at hd ⊢
    obtain ⟨us, e, x, hx, hfault, hfirst, heq⟩ := hbegun.exists_effect hd
    rw [List.nil_append] at hx
    obtain ⟨v, hc, hmoved⟩ := Line.exists_causes hx.leads
    rw [heq]
    refine ⟨v, hx.footprint hc hfault, fun hop => ?_⟩
    obtain ⟨t, ht, rfl⟩ := hmoved hop
    rw [ht]
    exact hfirst (t, v) rfl

/-- The second line is suspended and moves what is entered. -/
theorem completed_instruction_footprint_of_input :
    let p := (Program.load "mov 3 addr\nmov in mem").toOption.getD default
    let s := (State.stepMany p 1 (.initial 0 (Tape.ofList []))).2
    Reachable p s ∧ (s.step p).1 = .ok .input ∧ (s.attend p [.text "a"]).1.1 = .ok .stepped ∧
      Footprint p (p.line s.pc) (.text "a") s (s.attend p [.text "a"]).1.2 := by
  intro p s
  have hreach : Reachable p s := State.reachable_stepMany (.boot (.ofSeed 0) (Tape.ofList [])) 1
  have hd : (s.attend p [.text "a"]).1.1 = .ok .stepped := by decide +kernel
  have hop : (p.line s.pc).head.kind = .opcode .move := by decide +kernel
  have hmoved : ((p.line s.pc).operands[0]?.bind s.value?).or [Value.text "a"].head? =
      some (.text "a") := by decide +kernel
  obtain ⟨v, hfoot, hv⟩ := completed_instruction_footprint hreach hd
  obtain rfl : v = .text "a" := Option.some.inj ((hv hop).symm.trans hmoved)
  exact ⟨hreach, by decide +kernel, hd, hfoot⟩

end

end LineAsm
