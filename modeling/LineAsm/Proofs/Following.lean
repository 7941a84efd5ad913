import LineAsm.Machine.State

set_option autoImplicit false

/-!
# The line after a line

Lines are counted round the program. The machine goes on with the first line after the present one
that is not inert; in a program with such a line it finds it within one lap.
-/

namespace LineAsm.Program

/-- `j` is the first line after line `i`, counted round the program, that is not inert. -/
def IsNext (p : Program) (i j : Nat) : Prop :=
  ∃ n, 0 < n ∧ j = (i + n) % p.size ∧ (p.line j).isInert = false ∧
    ∀ m, 0 < m → m < n → (p.line ((i + m) % p.size)).isInert = true

def IsExecutable (p : Program) : Prop := ∃ i, i < p.size ∧ (p.line i).isInert = false

theorem nextIndex_of_lt {p : Program} {i : Nat} (h : i + 1 < p.size) : p.nextIndex i = i + 1 :=
  Nat.mod_eq_of_lt h

theorem nextIndex_of_last {p : Program} {i : Nat} (h : i + 1 = p.size) : p.nextIndex i = 0 := by
  rw [nextIndex, h, Nat.mod_self]

theorem nextIndex_add (p : Program) (i n : Nat) :
    (p.nextIndex i + n) % p.size = (i + (n + 1)) % p.size := by
  rw [nextIndex, Nat.mod_add_mod]
  congr 1
  omega

theorem wrap_natCast {p : Program} {i : Nat} (h : i < p.size) : p.wrap (i : Int) = i := by
  rw [wrap, ← Int.natCast_emod, Int.toNat_natCast, Nat.mod_eq_of_lt h]

theorem isInert_of_size_le {p : Program} {i : Nat} (h : p.size ≤ i) :
    (p.line i).isInert = true := by
  have hnone : p.line? i = none := Array.getElem?_eq_none h
  rw [line, hnone]
  rfl

theorem lt_size_of_not_isInert {p : Program} {i : Nat} (h : (p.line i).isInert = false) :
    i < p.size := by
  rcases Nat.lt_or_ge i p.size with hlt | hge
  · exact hlt
  · rw [isInert_of_size_le hge] at h
    cases h

theorem isExecutable_of_opcode {p : Program} {i : Nat} {op : Opcode}
    (h : (p.line i).head.kind = .opcode op) : i < p.size ∧ p.IsExecutable := by
  have hinert : (p.line i).isInert = false := by simp only [Line.isInert, Token.isInert, h]
  have hlt := lt_size_of_not_isInert hinert
  exact ⟨hlt, i, hlt, hinert⟩

/-- Passing over inert lines stops at the first line that is not inert, or with the count. -/
theorem passInert_eq (p : Program) (n : Nat) {i : Nat} (hi : i < p.size) :
    ∃ m, m ≤ n ∧ p.passInert n i = (i + m) % p.size ∧
      (∀ k, k < m → (p.line ((i + k) % p.size)).isInert = true) ∧
      (m = n ∨ (p.line (p.passInert n i)).isInert = false) := by
  induction n generalizing i with
  | zero => exact ⟨0, Nat.le_refl 0, (Nat.mod_eq_of_lt hi).symm, by simp, .inl rfl⟩
  | succ n ih =>
    unfold passInert
    cases hinert : (p.line i).isInert with
    | false =>
      refine ⟨0, Nat.zero_le _, (Nat.mod_eq_of_lt hi).symm, by simp, .inr ?_⟩
      simpa using hinert
    | true =>
      have hnext : p.nextIndex i < p.size := nextIndex_lt (by omega) i
      obtain ⟨m, hm, hpass, hbefore, hstop⟩ := ih hnext
      rw [if_pos rfl]
      refine ⟨m + 1, Nat.succ_le_succ hm, by rw [hpass, nextIndex_add], ?_, ?_⟩
      · intro k hk
        cases k with
        | zero => rwa [Nat.add_zero, Nat.mod_eq_of_lt hi]
        | succ k =>
          rw [← nextIndex_add]
          exact hbefore k (Nat.lt_of_succ_lt_succ hk)
      · rcases hstop with rfl | hstop
        · exact .inl rfl
        · exact .inr hstop

/-- Within one lap every line is passed. -/
theorem exists_offset {p : Program} {i j : Nat} (hi : i < p.size) (hj : j < p.size) :
    ∃ n, n < p.size ∧ (i + n) % p.size = j := by
  by_cases h : i ≤ j
  · refine ⟨j - i, by omega, ?_⟩
    rw [Nat.add_sub_cancel' h, Nat.mod_eq_of_lt hj]
  · refine ⟨j + p.size - i, by omega, ?_⟩
    rw [Nat.add_sub_cancel' (by omega), Nat.add_mod_right, Nat.mod_eq_of_lt hj]

theorem passInert_not_isInert {p : Program} (h : p.IsExecutable) {i : Nat} (hi : i < p.size) :
    (p.line (p.passInert p.size i)).isInert = false := by
  obtain ⟨m, -, -, hbefore, hstop⟩ := p.passInert_eq p.size hi
  rcases hstop with rfl | hstop
  · -- the whole lap was inert, against the line that is not
    obtain ⟨j, hj, hexec⟩ := h
    obtain ⟨n, hn, hoff⟩ := exists_offset hi hj
    have hinert := hbefore n hn
    rw [hoff, hexec] at hinert
    cases hinert
  · exact hstop

theorem following_isNext {p : Program} (h : p.IsExecutable) (i : Nat) :
    p.IsNext i (p.following i) := by
  obtain ⟨j, hj, hexec⟩ := h
  have hnext : p.nextIndex i < p.size := nextIndex_lt (by omega) i
  obtain ⟨m, -, hpass, hbefore, -⟩ := p.passInert_eq p.size hnext
  refine ⟨m + 1, Nat.succ_pos m, ?_, passInert_not_isInert ⟨j, hj, hexec⟩ hnext, ?_⟩
  · rw [following, hpass, nextIndex_add]
  · intro k hpos hk
    obtain ⟨k, rfl⟩ := Nat.exists_eq_succ_of_ne_zero (by omega : k ≠ 0)
    rw [Nat.succ_eq_add_one, ← nextIndex_add]
    exact hbefore k (by omega)

/-- From line `i` on, only inert lines come before line `j`, which is not inert. -/
inductive Reaches (p : Program) : Nat → Nat → Prop where
  | here {i : Nat} (h : (p.line i).isInert = false) : Reaches p i i
  | pass {i j : Nat} (h : (p.line i).isInert = true) (hnext : Reaches p (p.nextIndex i) j) :
      Reaches p i j

theorem Reaches.unique {p : Program} {i j k : Nat} (hj : p.Reaches i j) (hk : p.Reaches i k) :
    j = k := by
  induction hj with
  | here h =>
    cases hk with
    | here _ => rfl
    | pass h' _ => simp [h] at h'
  | pass h _ ih =>
    cases hk with
    | here h' => simp [h] at h'
    | pass _ hnext => exact ih hnext

theorem passInert_reaches {p : Program} {n i : Nat}
    (h : (p.line (p.passInert n i)).isInert = false) : p.Reaches i (p.passInert n i) := by
  induction n generalizing i with
  | zero => exact .here h
  | succ n ih =>
    unfold passInert at h ⊢
    cases hinert : (p.line i).isInert with
    | false => exact .here hinert
    | true =>
      rw [hinert, if_pos rfl] at h
      exact .pass hinert (ih h)

theorem following_reaches {p : Program} (h : p.IsExecutable) (i : Nat) :
    p.Reaches (p.nextIndex i) (p.following i) := by
  obtain ⟨j, hj, hexec⟩ := h
  exact passInert_reaches (passInert_not_isInert ⟨j, hj, hexec⟩ (nextIndex_lt (by omega) i))

/-- Two programs of one size have their inert lines at the same places. -/
structure SameLayout (p q : Program) : Prop where
  size : q.size = p.size
  isInert : ∀ i, i < p.size → (q.line i).isInert = (p.line i).isInert

namespace SameLayout

variable {p q : Program}

theorem isInert_eq (h : p.SameLayout q) (i : Nat) : (q.line i).isInert = (p.line i).isInert := by
  rcases Nat.lt_or_ge i p.size with hlt | hge
  · exact h.isInert i hlt
  · rw [isInert_of_size_le hge, isInert_of_size_le (h.size ▸ hge)]

theorem nextIndex_eq (h : p.SameLayout q) (i : Nat) : q.nextIndex i = p.nextIndex i := by
  rw [nextIndex, nextIndex, h.size]

theorem wrap_eq (h : p.SameLayout q) (position : Int) : q.wrap position = p.wrap position := by
  rw [wrap, wrap, h.size]

theorem passInert_eq (h : p.SameLayout q) (n i : Nat) : q.passInert n i = p.passInert n i := by
  induction n generalizing i with
  | zero => rfl
  | succ n ih => rw [passInert, passInert, h.isInert_eq, h.nextIndex_eq, ih]

theorem following_eq (h : p.SameLayout q) (i : Nat) : q.following i = p.following i := by
  rw [following, following, h.size, h.nextIndex_eq, h.passInert_eq]

end SameLayout

end LineAsm.Program
