import LineAsm.Proofs.Reachable

set_option autoImplicit false

/-!
# Sequences of requests

Between calls the generator may be seeded anew, and the outside world may exchange the device. A
sequence of such requests is answered one after another; `exchanges` lists the answers with the
states around them. Requests that are answered without a change of state can be left out.
-/

namespace LineAsm

inductive Request (δ : Type) where
  | call (c : Call)
  | reseed (seed : UInt64)
  | attach (device : δ)

/-- A request with its answer, if it has one, and the states before and after it. -/
structure Exchange (σ δ : Type) where
  before : σ
  request : Request δ
  answer : Option (Except Diagnostic Event)
  after : σ

section

variable {σ δ : Type} (serve : σ → Request δ → Option (Except Diagnostic Event) × σ)

def exchanges : σ → List (Request δ) → List (Exchange σ δ)
  | _, [] => []
  | s, r :: rs => ⟨s, r, (serve s r).1, (serve s r).2⟩ :: exchanges (serve s r).2 rs

def served : σ → List (Request δ) → σ
  | s, [] => s
  | s, r :: rs => served (serve s r).2 rs

variable {serve}

theorem served_invariant {I : σ → Prop} (hstep : ∀ s r, I s → I (serve s r).2) {s : σ} (hs : I s)
    (rs : List (Request δ)) : I (served serve s rs) := by
  induction rs generalizing s with
  | nil => exact hs
  | cons r rs ih => exact ih (hstep s r hs)

/-- Requests whose answers tell that nothing has changed can be left out: all other exchanges stay
as they are, and so does the state in the end. -/
theorem exchanges_filter {I : σ → Prop} {idle : Option (Except Diagnostic Event) → Bool}
    (hstep : ∀ s r, I s → I (serve s r).2)
    (hidle : ∀ s r, I s → idle (serve s r).1 = true → (serve s r).2 = s) {s : σ} (hs : I s)
    (rs : List (Request δ)) :
    let kept := (exchanges serve s rs).filter fun x => !idle x.answer
    exchanges serve s (kept.map Exchange.request) = kept ∧
      served serve s (kept.map Exchange.request) = served serve s rs := by
  induction rs generalizing s with
  | nil => exact ⟨rfl, rfl⟩
  | cons r rs ih =>
    obtain ⟨hlist, hend⟩ := ih (hstep s r hs)
    cases hi : idle (serve s r).1 with
    | true =>
      rw [hidle s r hs hi] at hlist hend
      simp only [exchanges, served, List.filter_cons, hi, hidle s r hs hi]
      exact ⟨hlist, hend⟩
    | false =>
      simp only [exchanges, served, List.filter_cons, hi, Bool.not_false, if_true, List.map_cons]
      exact ⟨congrArg _ hlist, hend⟩

end

namespace State

variable {δ : Type} [Device δ]

def serve (p : Program) (s : State δ) :
    Request δ → Option (Except Diagnostic Event) × State δ
  | .call c => (some (s.call p c).1, (s.call p c).2)
  | .reseed seed => (none, s.reseed seed)
  | .attach device => (none, { s with device })

theorem Consistent.serve {p : Program} {s : State δ} (h : s.Consistent p) (r : Request δ) :
    (s.serve p r).2.Consistent p := by
  cases r with
  | call c => exact h.call c
  | reseed seed => exact h
  | attach device => exact h

end State

theorem Reachable.serve {δ : Type} [Device δ] {p : Program} {s : State δ} (h : Reachable p s)
    (r : Request δ) : Reachable p (s.serve p r).2 := by
  cases r with
  | call c => exact .call h c
  | reseed seed => exact .reseed h seed
  | attach device => exact .attach h device

theorem Reachable.served {δ : Type} [Device δ] {p : Program} {s : State δ} (h : Reachable p s)
    (rs : List (Request δ)) : Reachable p (served (State.serve p) s rs) :=
  served_invariant (fun _ r hs => hs.serve r) h rs

end LineAsm
