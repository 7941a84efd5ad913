import LineAsm.Memory
import Mathlib.Logic.Function.Basic

set_option autoImplicit false

/-!
# Memory as a map

A memory stands for a map from all addresses to values, which is zero where nothing was stored. The
cells are a growing row, but the row shows nowhere: what is fetched is what was stored last, however
the pointer moved, the row grew, and the value stack was used in between. Memories that are copied
go on separately, each with a history of its own.
-/

namespace LineAsm

namespace Memory

inductive Action where
  | point (address : Nat)
  | fetch
  | store (v : Value)
  | push (v : Value)
  | pop
  | top
  | clear
deriving DecidableEq

abbrev Answer : Type := Except Fault (Option Value)

/-- The answer to an action, and the memory after it. -/
def act (m : Memory) : Action → Answer × Memory
  | .point address => (.ok none, m.setAddress address)
  | .fetch => (.ok (some m.fetch), m)
  | .store v =>
    match m.store v with
    | .ok after => (.ok none, after)
    | .error f => (.error f, m)
  | .push v =>
    match m.stack.push v with
    | .ok stack => (.ok none, m.mapStack fun _ => stack)
    | .error f => (.error f, m)
  | .pop =>
    match m.stack.pop with
    | .ok (v, stack) => (.ok (some v), m.mapStack fun _ => stack)
    | .error f => (.error f, m)
  | .top => (m.stack.top.map some, m)
  | .clear => (.ok none, m.mapStack .clear)

def after (m : Memory) (xs : List Action) : Memory := xs.foldl (fun m x => (m.act x).2) m

/-- An action with its answer and the place of the pointer when it was asked for. -/
structure Entry where
  address : Nat
  action : Action
  answer : Answer

def history (m : Memory) : List Action → List Entry
  | [] => []
  | x :: xs => ⟨m.address, x, (m.act x).1⟩ :: (m.act x).2.history xs

def Entry.stored? (e : Entry) : Option (Nat × Value) :=
  match e.action, e.answer with
  | .store v, .ok _ => some (e.address, v)
  | _, _ => none

/-- The values that were stored without a fault, with their addresses, in order. -/
def stores (m : Memory) (xs : List Action) : List (Nat × Value) :=
  (m.history xs).filterMap Entry.stored?

/-- The map that a memory stands for. -/
def contents (m : Memory) (address : Nat) : Value := (m.setAddress address).fetch

/-! ### Cells -/

theorem contents_eq (m : Memory) (a : Nat) : m.contents a = m.cells[a]?.getD .blank := rfl

theorem getD_extend (cells : Array Value) (size a : Nat) :
    (extend cells size)[a]?.getD .blank = cells[a]?.getD .blank := by
  rw [extend, Array.getElem?_append]
  split
  · rfl
  · rename_i h
    rw [Array.getElem?_eq_none (Nat.le_of_not_lt h), Array.getElem?_replicate]
    split <;> rfl

theorem contents_put (m : Memory) (v : Value) :
    (m.put v).contents = Function.update m.contents m.address v := by
  have hlt : m.address < (extend m.cells (m.address + 1)).size := by
    rw [size_extend]
    omega
  funext a
  rw [Function.update_apply, contents_eq, contents_eq, put, Array.getElem?_setIfInBounds]
  by_cases h : a = m.address
  · subst h
    rw [if_pos rfl, if_pos hlt, if_pos rfl]
    rfl
  · rw [if_neg (Ne.symm h), if_neg h, getD_extend]

theorem act_store (m : Memory) (v : Value) :
    m.act (.store v) =
      if m.address < 65536 then (.ok none, m.put v)
      else (.error (.addressOutOfRange m.address), m) := by
  by_cases h : m.address < 65536
  · have hrange : m.inRange = true := decide_eq_true h
    rw [act, store, if_pos hrange, if_pos h]
  · have hrange : ¬ m.inRange = true := fun hr => h (of_decide_eq_true hr)
    rw [act, store, if_neg hrange, if_neg h]

theorem act_cases (m : Memory) (x : Action) :
    (∃ v, (⟨m.address, x, (m.act x).1⟩ : Entry).stored? = some (m.address, v) ∧
      (m.act x).2 = m.put v) ∨
    ((⟨m.address, x, (m.act x).1⟩ : Entry).stored? = none ∧ (m.act x).2.cells = m.cells) := by
  cases x with
  | store v =>
    rw [act_store]
    split
    · exact .inl ⟨v, rfl, rfl⟩
    · exact .inr ⟨rfl, rfl⟩
  | push v =>
    refine .inr ⟨rfl, ?_⟩
    rw [act]
    split <;> rfl
  | pop =>
    refine .inr ⟨rfl, ?_⟩
    rw [act]
    split <;> rfl
  | point | fetch | top | clear => exact .inr ⟨rfl, rfl⟩

theorem stores_cons (m : Memory) (x : Action) (xs : List Action) :
    m.stores (x :: xs) =
      (⟨m.address, x, (m.act x).1⟩ : Entry).stored?.toList ++ (m.act x).2.stores xs := by
  rw [stores, history, List.filterMap_cons]
  cases (⟨m.address, x, (m.act x).1⟩ : Entry).stored? <;> rfl

theorem contents_after (m : Memory) (xs : List Action) (a : Nat) :
    (m.after xs).contents a = ((m.stores xs).reverse.lookup a).getD (m.contents a) := by
  induction xs generalizing m with
  | nil => rfl
  | cons x xs ih =>
    rw [stores_cons, List.reverse_append, List.lookup_append]
    refine (ih (m.act x).2).trans ?_
    cases ((m.act x).2.stores xs).reverse.lookup a with
    | some v => rfl
    | none =>
      rw [Option.none_or, Option.getD_none]
      obtain ⟨v, hstored, hput⟩ | ⟨hstored, hcells⟩ := m.act_cases x
      · rw [hstored, hput, contents_put, Function.update_apply]
        by_cases h : a = m.address
        · simp [h]
        · have hne : (a == m.address) = false := beq_eq_false_iff_ne.2 h
          simp [h, List.lookup_cons, hne]
      · rw [hstored, contents_eq, hcells]
        rfl

theorem size_cells_after (m : Memory) (xs : List Action) :
    (m.after xs).cells.size =
      max m.cells.size ((((m.stores xs).map Prod.fst).max?.map (· + 1)).getD 0) := by
  induction xs generalizing m with
  | nil => exact (Nat.max_zero _).symm
  | cons x xs ih =>
    rw [stores_cons]
    refine (ih (m.act x).2).trans ?_
    obtain ⟨v, hstored, hput⟩ | ⟨hstored, hcells⟩ := m.act_cases x
    · rw [hstored, hput, size_cells_put, Option.toList_some, List.singleton_append, List.map_cons,
        List.max?_cons]
      cases ((m.put v).stores xs |>.map Prod.fst).max? with
      | none => simp
      | some b => simp only [Option.map_some, Option.getD_some, Option.elim_some]; omega
    · rw [hstored, hcells, Option.toList_none, List.nil_append]

/-! ### Cells and stack -/

inductive Part where
  | cells
  | stack
deriving DecidableEq

def Action.part : Action → Part
  | .point _ => .cells
  | .fetch => .cells
  | .store _ => .cells
  | .push _ => .stack
  | .pop => .stack
  | .top => .stack
  | .clear => .stack

/-- Two memories have one part in common. -/
def SameIn (part : Part) (m n : Memory) : Prop :=
  match part with
  | .cells => m.cells = n.cells ∧ m.address = n.address
  | .stack => m.stack = n.stack

theorem SameIn.refl (part : Part) (m : Memory) : SameIn part m m := by
  cases part with
  | cells => exact ⟨rfl, rfl⟩
  | stack => rfl

theorem SameIn.act {m n : Memory} {x : Action} (h : SameIn x.part m n) :
    (m.act x).1 = (n.act x).1 ∧ SameIn x.part (m.act x).2 (n.act x).2 := by
  cases x with
  | point address => exact ⟨rfl, h.1, rfl⟩
  | fetch => exact ⟨congrArg (Except.ok ∘ some) (by rw [fetch, fetch, h.1, h.2]), h⟩
  | store v =>
    obtain ⟨hcells, haddress⟩ := h
    rw [act_store, act_store, haddress]
    split
    · exact ⟨rfl, by simp only [put, hcells, haddress], haddress⟩
    · exact ⟨rfl, hcells, haddress⟩
  | push v =>
    have hstack : m.stack = n.stack := h
    simp only [Memory.act, hstack]
    cases n.stack.push v with
    | ok stack => exact ⟨rfl, rfl⟩
    | error f => exact ⟨rfl, hstack⟩
  | pop =>
    have hstack : m.stack = n.stack := h
    simp only [Memory.act, hstack]
    cases n.stack.pop with
    | ok popped => exact ⟨rfl, rfl⟩
    | error f => exact ⟨rfl, hstack⟩
  | top =>
    have hstack : m.stack = n.stack := h
    exact ⟨by simp only [Memory.act, hstack], hstack⟩
  | clear =>
    have hstack : m.stack = n.stack := h
    exact ⟨rfl, congrArg Stack.clear hstack⟩

theorem SameIn.act_other {part : Part} {m n : Memory} {x : Action} (hx : x.part ≠ part)
    (h : SameIn part m n) : SameIn part (m.act x).2 n := by
  cases part with
  | cells =>
    cases x with
    | push v =>
      rw [Memory.act]
      split <;> exact h
    | pop =>
      rw [Memory.act]
      split <;> exact h
    | top | clear => exact h
    | point | fetch | store => exact absurd rfl hx
  | stack =>
    cases x with
    | store v =>
      rw [act_store]
      split <;> exact h
    | point | fetch => exact h
    | push | pop | top | clear => exact absurd rfl hx

theorem SameIn.after {part : Part} {m n : Memory} (h : SameIn part m n) (xs : List Action) :
    SameIn part (m.after xs) (n.after (xs.filter (·.part = part))) ∧
    ((m.history xs).filter (·.action.part = part)).map (fun e => (e.action, e.answer)) =
      (n.history (xs.filter (·.part = part))).map fun e => (e.action, e.answer) := by
  induction xs generalizing m n with
  | nil => exact ⟨h, rfl⟩
  | cons x xs ih =>
    by_cases hx : x.part = part
    · subst hx
      obtain ⟨hanswer, hsame⟩ := h.act
      obtain ⟨hend, hlist⟩ := ih hsame
      simp only [history, List.filter_cons, decide_true, if_true, List.map_cons, hanswer]
      exact ⟨hend, congrArg _ hlist⟩
    · obtain ⟨hend, hlist⟩ := ih (h.act_other hx)
      simp only [history, List.filter_cons, hx, decide_false, Bool.false_eq_true, if_false]
      exact ⟨hend, hlist⟩

/-! ### Copies -/

/-- An action on one of several memories, or a copy of one of them. -/
inductive Request where
  | act (index : Nat) (x : Action)
  | copy (index : Nat)

def serve (ms : List Memory) : Request → List Memory
  | .act index x => ms.modify index fun m => (m.act x).2
  | .copy index => ms ++ ms[index]?.toList

/-- Adds a request to the history of the memory that it is about; a copy starts with the history of
what it was copied from. -/
def record (histories : List (List Action)) : Request → List (List Action)
  | .act index x => histories.modify index (· ++ [x])
  | .copy index => histories ++ histories[index]?.toList

theorem after_concat (m : Memory) (xs : List Action) (x : Action) :
    m.after (xs ++ [x]) = ((m.after xs).act x).2 := by
  rw [after, List.foldl_append]
  rfl

theorem serve_map (m : Memory) (histories : List (List Action)) (r : Request) :
    serve (histories.map m.after) r = (record histories r).map m.after := by
  cases r with
  | act index x =>
    apply List.ext_getElem?
    intro i
    rw [serve, record, List.getElem?_modify, List.getElem?_map, List.getElem?_map,
      List.getElem?_modify]
    cases histories[i]? with
    | none => rfl
    | some xs =>
      by_cases h : index = i
      · simp [h, after_concat]
      · simp [h]
  | copy index =>
    rw [serve, record, List.map_append, List.getElem?_map]
    cases histories[index]? <;> rfl

theorem foldl_serve (m : Memory) (histories : List (List Action)) (rs : List Request) :
    rs.foldl serve (histories.map m.after) = (rs.foldl record histories).map m.after := by
  induction rs generalizing histories with
  | nil => rfl
  | cons r rs ih => rw [List.foldl_cons, List.foldl_cons, serve_map, ih]

/-- Requests that start with one fresh memory, among them copies, lead each memory where its own
history leads a fresh one. After a history, fetching at an address gives the value stored there last
without a fault, and otherwise zero; there are as many cells as the largest address with a value
asks for. A store fails exactly if the pointer is at 65536 or beyond, and then changes nothing;
else it changes the map at the pointer and nowhere else. The cells with their pointer, and the
answers about them, are those of the history without the stack, and the other way round. -/
theorem refines_total_map :
    (∀ rs : List Request,
      rs.foldl serve [initial] = (rs.foldl record [[]]).map initial.after) ∧
    ∀ xs : List Action,
      let m := initial.after xs
      let stored := initial.stores xs
      (∀ a, (m.setAddress a).fetch = (stored.reverse.lookup a).getD (.number .zero)) ∧
      m.cells.size = ((stored.map Prod.fst).max?.map (· + 1)).getD 0 ∧
      (∀ v, m.act (.store v) =
        if m.address < 65536 then (.ok none, m.put v)
        else (.error (.addressOutOfRange m.address), m)) ∧
      (∀ v, (m.put v).contents = Function.update m.contents m.address v) ∧
      ∀ part,
        SameIn part m (initial.after (xs.filter (·.part = part))) ∧
        ((initial.history xs).filter (·.action.part = part)).map
            (fun e => (e.action, e.answer)) =
          (initial.history (xs.filter (·.part = part))).map
            fun e => (e.action, e.answer) := by
  refine ⟨fun rs => foldl_serve initial [[]] rs, ?_⟩
  intro xs m stored
  refine ⟨fun a => contents_after initial xs a, ?_, m.act_store, m.contents_put, ?_⟩
  · exact (size_cells_after initial xs).trans (Nat.zero_max _)
  · exact fun part => (SameIn.refl part initial).after xs

end Memory

end LineAsm
