import LineAsm.Value

set_option autoImplicit false

/-!
# Registers

The accumulator and ten general registers, each holding a value.
-/

namespace LineAsm

inductive Register where
  | acc
  | general (n : Fin 10)
deriving DecidableEq, Inhabited

namespace Register

/-- The accumulator comes first. -/
def index : Register → Fin 11
  | .acc => 0
  | .general n => n.succ

def name : Register → String
  | .acc => "ACC"
  | .general n => "R" ++ toString n.val

def all : List Register := .acc :: (List.finRange 10).map .general

theorem index_injective {r q : Register} (h : r.index = q.index) : r = q := by
  cases r with
  | acc =>
    cases q with
    | acc => rfl
    | general n => exact absurd h.symm (Fin.succ_ne_zero n)
  | general m =>
    cases q with
    | acc => exact absurd h (Fin.succ_ne_zero m)
    | general n => exact congrArg _ (Fin.succ_inj.1 h)

end Register

structure Registers where
  cells : Vector Value 11
deriving DecidableEq

namespace Registers

def initial : Registers := ⟨.replicate 11 .blank⟩

instance : Inhabited Registers := ⟨initial⟩

def get (rs : Registers) (r : Register) : Value := rs.cells[r.index]

def set (rs : Registers) (r : Register) (v : Value) : Registers :=
  ⟨rs.cells.set r.index.val v r.index.isLt⟩

def acc (rs : Registers) : Value := rs.get .acc

theorem get_set (rs : Registers) (r q : Register) (v : Value) :
    (rs.set r v).get q = if q = r then v else rs.get q := by
  unfold get set
  by_cases h : q = r
  · subst h
    simp
  · have hi : r.index.val ≠ q.index.val := fun e => h (Register.index_injective (Fin.ext e.symm))
    simp [Vector.getElem_set_ne _ _ hi, h]

end Registers

end LineAsm
