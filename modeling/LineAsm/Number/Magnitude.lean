import LineAsm.Number.Power

set_option autoImplicit false

/-!
# Magnitudes of double precision numbers

The finite doubles are whole multiples of `2 ^ -1074`. A magnitude counts these units, so every
finite double has exactly one magnitude, sums and products are sums and products of naturals, and
a result that is not a double is rounded once, by `nearest`: to the closest multiple of the spacing
that doubles have there, with a tie going to the even multiple.
-/

namespace LineAsm

/-- The distance, in units, between neighbouring doubles around `n` units: 53 significant bits. -/
def spacing (n : Nat) : Nat := twoPow (n.log2 - 52)

/-- The units in `2 ^ 1024`, the first power of two above the doubles. -/
def unitLimit : Nat := twoPow 2098

/-- A number of units that is a double: below the limit, and a multiple of its own spacing. -/
structure Magnitude where
  units : Nat
  bounded : units < unitLimit
  aligned : spacing units ∣ units
deriving DecidableEq

/-- The multiple of the local spacing closest to `num / den` units; ties go to the even multiple. -/
def nearest (num den : Nat) : Nat :=
  let gap := spacing (num / den)
  let low := num / (den * gap)
  let rest := 2 * (num % (den * gap))
  if rest < den * gap ∨ (rest = den * gap ∧ low % 2 = 0) then low * gap else (low + 1) * gap

/-- A count of at most `2 ^ 53` steps of a power of two has no more than 53 significant bits. -/
theorem spacing_dvd_mul (t k : Nat) (h : t ≤ twoPow 53) :
    spacing (t * twoPow k) ∣ t * twoPow k := by
  unfold spacing
  by_cases hz : t = 0
  · subst hz
    simp
  have hp : t * twoPow k ≠ 0 := Nat.mul_ne_zero hz (Nat.ne_of_gt (twoPow_pos k))
  by_cases ht : t = twoPow 53
  · subst ht
    rw [← twoPow_add, log2_twoPow]
    exact twoPow_dvd_twoPow (by omega)
  · have hlt : t * twoPow k < twoPow (53 + k) := by
      rw [twoPow_add]
      exact Nat.mul_lt_mul_of_pos_right (by omega) (twoPow_pos k)
    have hlog : (t * twoPow k).log2 < 53 + k := (log2_lt_iff_lt_twoPow hp).2 hlt
    exact Nat.dvd_trans (twoPow_dvd_twoPow (by omega)) (Nat.dvd_mul_left _ _)

theorem div_spacing_lt (n : Nat) : n / spacing n < twoPow 53 := by
  unfold spacing
  rw [Nat.div_lt_iff_lt_mul (twoPow_pos _), ← twoPow_add]
  by_cases hn : n = 0
  · subst hn
    exact twoPow_pos _
  · exact (log2_lt_iff_lt_twoPow hn).1 (by omega)

theorem spacing_dvd_nearest (num den : Nat) : spacing (nearest num den) ∣ nearest num den := by
  have hlow : num / (den * spacing (num / den)) < twoPow 53 := by
    rw [← Nat.div_div_eq_div_mul]
    exact div_spacing_lt (num / den)
  unfold nearest
  dsimp only
  split
  · exact spacing_dvd_mul _ _ (Nat.le_of_lt hlow)
  · exact spacing_dvd_mul _ _ hlow

theorem spacing_pos (n : Nat) : 0 < spacing n := twoPow_pos _

namespace Magnitude

/-- Rounding changes nothing that is a double already. -/
theorem nearest_units (m : Magnitude) : nearest m.units 1 = m.units := by
  have hz : m.units % spacing m.units = 0 := Nat.mod_eq_zero_of_dvd m.aligned
  have hp := spacing_pos m.units
  unfold nearest
  simp only [Nat.div_one, Nat.one_mul, hz, Nat.mul_zero, hp, true_or, if_true]
  exact Nat.div_mul_cancel m.aligned

def one : Nat := twoPow 1074

def zero : Magnitude := ⟨0, twoPow_pos _, Nat.dvd_zero _⟩

instance : Inhabited Magnitude := ⟨zero⟩

def whole (m : Magnitude) : Nat := m.units / one

def isWhole (m : Magnitude) : Bool := m.units % one == 0

theorem ext_units {a b : Magnitude} (h : a.units = b.units) : a = b := by
  cases a
  cases b
  simp_all

end Magnitude

end LineAsm
