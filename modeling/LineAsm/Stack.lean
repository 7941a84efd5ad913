import LineAsm.Fault

set_option autoImplicit false

/-!
# Bounded stacks

A stack has a name, for its faults, and at most 65535 entries.
-/

namespace LineAsm

/-- The entries of a stack, the top one last. -/
structure Stack (α : Type) where
  name : String
  items : Array α
deriving DecidableEq

namespace Stack

variable {α : Type}

def empty (name : String) : Stack α := ⟨name, #[]⟩

def capacity : Nat := 65535

def size (s : Stack α) : Nat := s.items.size

def isEmpty (s : Stack α) : Bool := s.items.isEmpty

def isFull (s : Stack α) : Bool := capacity ≤ s.size

def top? (s : Stack α) : Option α := s.items.back?

/-- Adds an entry on top, whether there is room or not. -/
def add (s : Stack α) (a : α) : Stack α := { s with items := s.items.push a }

def drop (s : Stack α) : Stack α := { s with items := s.items.pop }

def clear (s : Stack α) : Stack α := { s with items := #[] }

-- The checked operations are inlined so that no second copy of the entries is held meanwhile.
@[inline]
def push (s : Stack α) (a : α) : Except Fault (Stack α) :=
  if s.isFull then .error (.fullStack s.name) else .ok (s.add a)

@[inline]
def top (s : Stack α) : Except Fault α :=
  match s.top? with
  | some a => .ok a
  | none => .error (.emptyStack s.name)

@[inline]
def pop (s : Stack α) : Except Fault (α × Stack α) := s.top.map fun a => (a, s.drop)

@[simp]
theorem size_add (s : Stack α) (a : α) : (s.add a).size = s.size + 1 := Array.size_push a

@[simp]
theorem top?_add (s : Stack α) (a : α) : (s.add a).top? = some a := Array.back?_push

@[simp]
theorem drop_add (s : Stack α) (a : α) : (s.add a).drop = s := by
  simp [add, drop]

theorem add_drop_of_top? {s : Stack α} {a : α} (h : s.top? = some a) : s.drop.add a = s := by
  obtain ⟨name, items⟩ := s
  obtain ⟨front, rfl⟩ := Array.back?_eq_some_iff.1 h
  simp [add, drop]

theorem size_drop (s : Stack α) : s.drop.size = s.size - 1 := Array.size_pop

theorem top_of_top?_eq_some {s : Stack α} {a : α} (h : s.top? = some a) : s.top = .ok a := by
  simp only [top, h]

theorem top_of_top?_eq_none {s : Stack α} (h : s.top? = none) :
    s.top = .error (.emptyStack s.name) := by
  simp only [top, h]

theorem pop_of_top?_eq_some {s : Stack α} {a : α} (h : s.top? = some a) :
    s.pop = .ok (a, s.drop) := by
  rw [pop, top_of_top?_eq_some h]
  rfl

theorem pop_of_top?_eq_none {s : Stack α} (h : s.top? = none) :
    s.pop = .error (.emptyStack s.name) := by
  rw [pop, top_of_top?_eq_none h]
  rfl

theorem top?_eq_none_iff (s : Stack α) : s.top? = none ↔ s.isEmpty = true := by
  simp [top?, isEmpty]

theorem isEmpty_of_top?_eq_some {s : Stack α} {a : α} (h : s.top? = some a) :
    s.isEmpty = false := by
  rw [← Bool.not_eq_true, ← top?_eq_none_iff, h]
  exact Option.some_ne_none a

end Stack

end LineAsm
