set_option autoImplicit false

/-!
# Digits

The natural that a row of decimal digits denotes. `ofDigits` joins neighbouring digits to digits of
the squared base, again and again, so that long rows take few large multiplications; the main
statement is that it agrees with taking the digits one by one from the left.
-/

namespace LineAsm

def digitValue (c : Char) : Nat := c.toNat - '0'.toNat

/-- The natural with the given digits, the least significant first. -/
def littleEndian (base : Nat) (ds : List Nat) : Nat := ds.foldr (fun d n => d + base * n) 0

/-- Joins digits two by two to digits of the squared base. -/
def joinPairs (base : Nat) : List Nat → List Nat
  | a :: b :: ds => (a + base * b) :: joinPairs base ds
  | ds => ds

/-- The natural with the given digits, joined in pairs the given number of times. -/
def joinDigits : Nat → Nat → List Nat → Nat
  | 0, base, ds => littleEndian base ds
  | n + 1, base, ds => joinDigits n (base * base) (joinPairs base ds)

def ofDigits (ds : List Char) : Nat :=
  joinDigits ds.length.log2 10 (ds.reverse.map digitValue)

theorem littleEndian_joinPairs (base : Nat) (ds : List Nat) :
    littleEndian (base * base) (joinPairs base ds) = littleEndian base ds := by
  fun_induction joinPairs base ds with
  | case1 a b ds ih =>
    simp only [littleEndian, List.foldr_cons] at ih ⊢
    rw [ih, Nat.mul_add, Nat.mul_assoc, Nat.add_assoc]
  | case2 ds h =>
    match ds, h with
    | [], _ => rfl
    | [a], _ => simp [littleEndian]
    | a :: b :: ds, h => exact absurd rfl (h a b ds)

theorem joinDigits_eq (n base : Nat) (ds : List Nat) :
    joinDigits n base ds = littleEndian base ds := by
  induction n generalizing base ds with
  | zero => rfl
  | succ n ih => rw [joinDigits, ih, littleEndian_joinPairs]

theorem ofDigits_eq_foldl (ds : List Char) :
    ofDigits ds = ds.foldl (fun n c => 10 * n + digitValue c) 0 := by
  rw [ofDigits, joinDigits_eq, littleEndian, List.map_reverse, List.foldr_reverse, List.foldl_map]
  simp only [Nat.add_comm]

end LineAsm
