import LineAsm.Proofs.Alike
import Mathlib.Data.List.Forall2

set_option autoImplicit false

/-!
# Programs that correspond

Two programs correspond under a renaming of lines if the plans of corresponding lines agree and the
lines that follow correspond. Their machines then run side by side: after the same requests they are
in the same state but for the names of lines, and their answers agree.
-/

namespace LineAsm

namespace Stack

variable {α β : Type}

def map (f : α → β) (s : Stack α) : Stack β := ⟨s.name, s.items.map f⟩

theorem size_map (f : α → β) (s : Stack α) : (s.map f).size = s.size := Array.size_map

theorem isFull_map (f : α → β) (s : Stack α) : (s.map f).isFull = s.isFull := by
  rw [isFull, isFull, size_map]

theorem isEmpty_map (f : α → β) (s : Stack α) : (s.map f).isEmpty = s.isEmpty := by
  rw [isEmpty, isEmpty, map, Array.isEmpty, Array.isEmpty, Array.size_map]

theorem top?_map (f : α → β) (s : Stack α) : (s.map f).top? = s.top?.map f := Array.back?_map

theorem map_add (f : α → β) (s : Stack α) (a : α) : (s.add a).map f = (s.map f).add (f a) := by
  simp only [map, add, Array.map_push]

theorem map_drop (f : α → β) (s : Stack α) : s.drop.map f = (s.map f).drop := by
  simp only [map, drop, Array.map_pop]

theorem mem_of_top? {s : Stack α} {a : α} (h : s.top? = some a) : a ∈ s.items :=
  Array.mem_of_back? h

end Stack

namespace State

variable {δ : Type}

/-- The state with its lines renamed. -/
def moved (f : Nat → Nat) (s : State δ) : State δ :=
  { s with pc := f s.pc, calls := s.calls.map f }

end State

def Effect.isPlain : Effect → Bool
  | .nothing => true
  | .setRegister _ _ => true
  | .slice _ _ => true
  | .output _ => true
  | .setAddress _ => true
  | .store _ => true
  | .push _ => true
  | _ => false

/-- An effect of line `i` of `p` and one of line `f i` of `q` that lead to corresponding lines. -/
inductive Effect.Agrees (p q : Program) (f : Nat → Nat) (i : Nat) : Effect → Effect → Prop where
  | plain {e : Effect} (h : e.isPlain = true) : Agrees p q f i e e
  | skip (test : Bool) (h : q.nextIndex (f i) = f (p.nextIndex i)) :
      Agrees p q f i (.skipUnless test) (.skipUnless test)
  | jump {a b : Int} (h : q.wrap b = f (p.wrap a)) : Agrees p q f i (.jump a) (.jump b)
  | jumpBy {offset : Number} (h : q.wrap (relative (f i) offset) = f (p.wrap (relative i offset))) :
      Agrees p q f i (.jumpBy offset) (.jumpBy offset)
  | call {a b : Int} (h : q.wrap b = f (p.wrap a)) : Agrees p q f i (.call a) (.call b)
  | return : Agrees p q f i .return .return

namespace Effect

variable {δ : Type}

theorem Agrees.fault?_eq {p q : Program} {f : Nat → Nat} {i : Nat} {e e' : Effect}
    (h : e.Agrees p q f i e') (s : State δ) : e'.fault? (s.moved f) = e.fault? s := by
  cases h with
  | plain h =>
    cases e with
    | skipUnless | jump | jumpBy | call | «return» => cases h
    | _ => rfl
  | skip test h => rfl
  | jump h => rfl
  | jumpBy h => rfl
  | call h =>
    unfold fault?
    rw [State.moved, Stack.isFull_map]
    rfl
  | «return» =>
    unfold fault?
    rw [State.moved, Stack.isEmpty_map]
    rfl

variable [Device δ]

theorem apply_jump_moved {p q : Program} {f : Nat → Nat} {a b : Int}
    (h : q.wrap b = f (p.wrap a)) (s : State δ) :
    (jump b).apply q (s.moved f) = ((jump a).apply p s).moved f := by
  unfold apply
  simp only [State.moved, h]

theorem Agrees.apply_eq {p q : Program} {f : Nat → Nat} {s : State δ} {e e' : Effect}
    (h : e.Agrees p q f s.pc e') : e'.apply q (s.moved f) = (e.apply p s).moved f := by
  cases h with
  | plain h =>
    cases e with
    | skipUnless | jump | jumpBy | call | «return» => cases h
    | _ => rfl
  | skip test h =>
    cases test with
    | true => rfl
    | false =>
      unfold apply
      simp only [State.moved, h]
      rfl
  | jump h => exact apply_jump_moved h s
  | jumpBy h =>
    rw [apply_jumpBy, apply_jumpBy]
    exact apply_jump_moved h s
  | call h =>
    unfold apply
    simp only [State.moved, h, Stack.map_add]
  | «return» =>
    unfold apply
    simp only [State.moved, Stack.map_drop, Stack.top?_map, Option.getD_map]

theorem pc_apply_lt {p : Program} {s : State δ} (h : s.InBounds p) (e : Effect) :
    (e.apply p s).pc < p.size := by
  have hp : 0 < p.size := Nat.lt_of_le_of_lt (Nat.zero_le _) h.pc
  cases e with
  | skipUnless test =>
    cases test with
    | true => exact h.pc
    | false => exact Program.nextIndex_lt hp s.pc
  | jump position => exact Program.wrap_lt hp position
  | jumpBy offset =>
    rw [apply_jumpBy]
    generalize relative s.pc offset = position
    exact Program.wrap_lt hp position
  | call position => exact Program.wrap_lt hp position
  | «return» =>
    unfold apply
    cases htop : s.calls.top? with
    | none => exact h.pc
    | some i => exact h.calls i (Stack.mem_of_top? htop)
  | _ => exact h.pc

end Effect

theorem State.sourceFault_of_alike {φ : Fault → Fault → Prop} (hφ : ∀ x, φ x x) {t t' : Token}
    (h : t.Alike φ t') (f : Nat → Nat) {δ : Type} (s : State δ) :
    φ (s.sourceFault (some t)) ((s.moved f).sourceFault (some t')) := by
  obtain ⟨kind, text, line⟩ := t
  obtain ⟨kind', text', line'⟩ := t'
  obtain rfl : kind' = kind := h.kind
  cases kind' with
  | pop | top => exact hφ _
  | number =>
    obtain rfl : text' = text := h.number rfl
    exact hφ _
  | _ => exact h.source

namespace State

variable {δ : Type} [Device δ]

theorem value?_of_alike {φ : Fault → Fault → Prop} {t t' : Token} (h : t.Alike φ t')
    (f : Nat → Nat) (s : State δ) : (s.moved f).value? t' = s.value? t := by
  obtain ⟨kind, text, line⟩ := t
  obtain ⟨kind', text', line'⟩ := t'
  obtain rfl : kind' = kind := h.kind
  cases kind' with
  | string =>
    obtain rfl : text' = text := h.string rfl
    rfl
  | number =>
    obtain rfl : text' = text := h.number rfl
    rfl
  | _ => rfl

theorem moved_consume (f : Nat → Nat) (s : State δ) (k : TokenKind) :
    (s.moved f).consume k = (s.consume k).moved f := by
  cases k <;> rfl

theorem consume_pc (s : State δ) (k : TokenKind) : (s.consume k).pc = s.pc := by
  cases k <;> rfl

theorem consume_calls (s : State δ) (k : TokenKind) : (s.consume k).calls = s.calls := by
  cases k <;> rfl

theorem InBounds.consume {p : Program} {s : State δ} (h : s.InBounds p) (k : TokenKind)
    (v : Value) : ((s.consume k).record v).InBounds p := by
  refine ⟨?_, ?_⟩
  · change (s.consume k).pc < p.size
    rw [consume_pc]
    exact h.pc
  · change ∀ i ∈ (s.consume k).calls.items, i < p.size
    rw [consume_calls]
    exact h.calls

end State

/-- Endings that are the same but for the names of lines. -/
inductive Ending.Agrees {δ : Type} (p : Program) (f : Nat → Nat) (φ : Fault → Fault → Prop) :
    Ending δ → Ending δ → Prop where
  | completed {s : State δ} (h : s.pc < p.size) :
      Agrees p f φ (.completed s) (.completed (s.moved f))
  | suspended (s : State δ) : Agrees p f φ (.suspended s) (.suspended (s.moved f))
  | failed {x x' : Fault} (h : φ x x') (s : State δ) :
      Agrees p f φ (.failed x s) (.failed x' (s.moved f))

namespace Plan.Agrees

variable {δ : Type} [Device δ]

/-- Agreeing plans end alike. The induction is on the plans; the line at hand stays the same. -/
theorem run {p q : Program} {f : Nat → Nat} {φ : Fault → Fault → Prop} (hφ : ∀ x, φ x x)
    {i : Nat} {r r' : Plan} (h : r.Agrees (Effect.Agrees p q f i) φ r') {s : State δ}
    (hs : s.InBounds p) (hi : s.pc = i) :
    (r.run p [] s).Agrees p f φ (r'.run q [] (s.moved f)) := by
  induction h generalizing s with
  | @done e e' h =>
    subst hi
    rw [Plan.run_done, Plan.run_done, h.fault?_eq, h.apply_eq]
    cases e.fault? s with
    | none => exact .completed (Effect.pc_apply_lt hs e)
    | some x => exact .failed (hφ x) s
  | fail h => exact .failed h s
  | missing next next' => exact .failed (hφ _) s
  | @read t t' next next' ht _ ih =>
    have hvalue := State.value?_of_alike ht f s
    unfold Plan.run
    cases hv : s.value? t with
    | some v =>
      rw [hv] at hvalue
      rw [State.read_of_value? hv, State.read_of_value? hvalue, ht.kind, State.moved_consume]
      exact ih v (hs.consume t.kind v) ((State.consume_pc s t.kind).trans hi)
    | none =>
      rw [hv] at hvalue
      by_cases hin : t.kind = .input
      · rw [State.read_input_of_none hin hv, State.read_input_of_none (ht.kind.trans hin) hvalue,
          State.moved_consume]
        exact .suspended _
      · rw [State.read_of_none hin hv, State.read_of_none (ht.kind ▸ hin) hvalue]
        exact .failed (State.sourceFault_of_alike hφ ht f s) s

end Plan.Agrees

/-- Answers that are the same but for the names of lines. What makes faults the same may depend on
the line. -/
inductive AnswersAgree (f : Nat → Nat) (φ : Nat → Fault → Fault → Prop) :
    Option (Except Diagnostic Event) → Option (Except Diagnostic Event) → Prop where
  | none : AnswersAgree f φ none none
  | event (e : Event) : AnswersAgree f φ (some (.ok e)) (some (.ok e))
  | fault {x x' : Fault} {i : Nat} (h : φ i x x') :
      AnswersAgree f φ (some (.error (x.inLine i))) (some (.error (x'.inLine (f i))))

/-- Lines of `p` and the lines of `q` that the renaming takes them to do the same. -/
structure Program.Corresponds (f : Nat → Nat) (φ : Nat → Fault → Fault → Prop) (p q : Program) :
    Prop where
  size : 0 < p.size
  same : ∀ i x, φ i x x
  plan : ∀ i, i < p.size → ((p.line i).plan p.labels).Agrees (Effect.Agrees p q f i) (φ i)
    ((q.line (f i)).plan q.labels)
  following : ∀ i, i < p.size → q.following (f i) = f (p.following i)

structure Exchange.Agrees {δ : Type} (f : Nat → Nat) (φ : Nat → Fault → Fault → Prop)
    (x y : Exchange (State δ) δ) : Prop where
  before : y.before = x.before.moved f
  request : y.request = x.request
  answer : AnswersAgree f φ x.answer y.answer
  after : y.after = x.after.moved f

namespace Program.Corresponds

variable {δ : Type} {f : Nat → Nat} {φ : Nat → Fault → Fault → Prop} {p q : Program}

theorem report (h : p.Corresponds f φ q) {e e' : Ending δ} {i : Nat}
    (he : e.Agrees p f (φ i) e') :
    AnswersAgree f φ (some (e.report p i).1) (some (e'.report q (f i)).1) ∧
      (e'.report q (f i)).2 = (e.report p i).2.moved f := by
  cases he with
  | @completed u hu =>
    refine ⟨.event .stepped, ?_⟩
    change { u.settle.moved f with pc := q.following (f u.pc) } = _
    rw [h.following u.pc hu]
    rfl
  | suspended u => exact ⟨.event .input, rfl⟩
  | failed hx u => exact ⟨.fault hx, rfl⟩

variable [Device δ]

theorem dispatch (h : p.Corresponds f φ q) {s : State δ} (hs : s.InBounds p) {w : Plan}
    (hw : s.Underway p w) :
    AnswersAgree f φ (some (s.dispatch p).1) (some ((s.moved f).dispatch q).1) ∧
      ((s.moved f).dispatch q).2 = (s.dispatch p).2.moved f := by
  -- what is left of the plans after the values in the log still agrees
  have hrest : ((s.plan p).residue s.log).Agrees (Effect.Agrees p q f s.pc) (φ s.pc)
      (((s.moved f).plan q).residue s.log) := by
    have hplan := h.plan s.pc hs.pc
    rw [hw.residue_eq]
    obtain ⟨rs, hl, hlog⟩ := hw
    rw [← hlog]
    exact hplan.residue hl
  rw [State.dispatch_eq_report, State.dispatch_eq_report, Plan.run_eq_run_residue,
    Plan.run_eq_run_residue q]
  exact h.report (hrest.run (h.same s.pc) hs rfl)

theorem serve (h : p.Corresponds f φ q) {s : State δ} (hs : s.InBounds p) (hc : s.Consistent p)
    (r : Request δ) :
    AnswersAgree f φ (s.serve p r).1 ((s.moved f).serve q r).1 ∧
      ((s.moved f).serve q r).2 = (s.serve p r).2.moved f := by
  cases r with
  | reseed seed => exact ⟨.none, rfl⟩
  | attach device => exact ⟨.none, rfl⟩
  | call c =>
    have hsame : (s.moved f).admits c = s.admits c := by cases c <;> rfl
    have htaken : (s.moved f).takenUp c = (s.takenUp c).moved f := by cases c <;> rfl
    change AnswersAgree f φ (some (s.call p c).1) (some ((s.moved f).call q c).1) ∧
      ((s.moved f).call q c).2 = (s.call p c).2.moved f
    cases ha : s.admits c with
    | true =>
      obtain ⟨w, hw⟩ := hc.exists_underway ha
      have hbounds : (s.takenUp c).InBounds p := by
        cases c <;> exact ⟨hs.pc, hs.calls⟩
      rw [State.call_of_admits ha, State.call_of_admits (hsame.trans ha), htaken]
      exact h.dispatch hbounds hw
    | false =>
      rw [State.call_of_not_admits ha, State.call_of_not_admits (hsame.trans ha)]
      cases c with
      | step => exact ⟨.event .waiting, rfl⟩
      | enter v => exact ⟨.fault (h.same s.pc _), rfl⟩

end Program.Corresponds

section

variable {δ : Type} [Device δ] {f : Nat → Nat} {φ : Nat → Fault → Fault → Prop} {p q : Program}

theorem Program.Corresponds.exchanges (h : p.Corresponds f φ q) {s : State δ}
    (hs : Reachable p s) (rs : List (Request δ)) :
    List.Forall₂ (Exchange.Agrees f φ) (exchanges (State.serve p) s rs)
        (exchanges (State.serve q) (s.moved f) rs) ∧
      served (State.serve q) (s.moved f) rs = (served (State.serve p) s rs).moved f := by
  induction rs generalizing s with
  | nil => exact ⟨.nil, rfl⟩
  | cons r rs ih =>
    obtain ⟨hanswer, hafter⟩ := h.serve (hs.inBounds h.size) hs.consistent r
    obtain ⟨hrest, hend⟩ := ih (hs.serve r)
    rw [← hafter] at hrest hend
    exact ⟨.cons ⟨rfl, rfl, hanswer, hafter⟩ hrest, hend⟩

end

end LineAsm
