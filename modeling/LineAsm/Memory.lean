import LineAsm.Stack
import LineAsm.Value

set_option autoImplicit false

/-!
# Memory

Memory is a row of cells with a pointer to one of them, and beside it the value stack. Cells up to
the highest one written exist; all others read as the number zero.
-/

namespace LineAsm

structure Memory where
  cells : Array Value
  address : Nat
  stack : Stack Value
deriving DecidableEq

namespace Memory

def initial : Memory := ⟨#[], 0, .empty "VALUE STACK"⟩

instance : Inhabited Memory := ⟨initial⟩

def capacity : Nat := 65536

def setAddress (m : Memory) (address : Nat) : Memory := { m with address }

def fetch (m : Memory) : Value := m.cells[m.address]?.getD .blank

/-- Cells extended with zeros up to the given number. -/
def extend (cells : Array Value) (size : Nat) : Array Value :=
  cells ++ Array.replicate (size - cells.size) .blank

/-- Writes the cell at the pointer, whether it is in range or not. -/
def put (m : Memory) (v : Value) : Memory :=
  { m with cells := (extend m.cells (m.address + 1)).setIfInBounds m.address v }

def inRange (m : Memory) : Bool := m.address < capacity

@[inline]
def store (m : Memory) (v : Value) : Except Fault Memory :=
  if m.inRange then .ok (m.put v) else .error (.addressOutOfRange m.address)

def mapStack (m : Memory) (f : Stack Value → Stack Value) : Memory := { m with stack := f m.stack }

theorem size_extend (cells : Array Value) (size : Nat) :
    (extend cells size).size = max cells.size size := by
  simp only [extend, Array.size_append, Array.size_replicate]
  omega

theorem size_cells_put (m : Memory) (v : Value) :
    (m.put v).cells.size = max m.cells.size (m.address + 1) := by
  simp [put, size_extend]

theorem fetch_put (m : Memory) (v : Value) : (m.put v).fetch = v := by
  have h : m.address < (extend m.cells (m.address + 1)).size := by
    rw [size_extend]
    omega
  simp [put, fetch, h]

end Memory

end LineAsm
