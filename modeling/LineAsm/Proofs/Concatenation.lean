import LineAsm.Proofs.Loading
import Mathlib.Control.Monad.Basic

set_option autoImplicit false

/-!
# Sources put together

Two sources with a newline between them give the lines of the first and then those of the second,
counted on from there. Where both define a label, the second definition counts; where a line cannot
be read, the first such line decides.
-/

namespace LineAsm

def Diagnostic.shift (n : Nat) (d : Diagnostic) : Diagnostic :=
  { d with line := d.line.map (· + n) }

namespace Labels

/-- The labels with their lines moved down. -/
def shift (n : Nat) (ls : Labels) : Labels := ⟨ls.entries.map (Prod.map id (· + n))⟩

/-- The labels whose names are kept. -/
def restrict (keep : String → Bool) (ls : Labels) : Labels :=
  ⟨ls.entries.filter fun e => keep e.1⟩

/-- The labels of both tables; a name that both have stands for its line in the second. -/
def override (ls ms : Labels) : Labels :=
  ⟨ls.entries.map (fun e => (e.1, (ms.get? e.1).getD e.2)) ++
    (ms.restrict fun name => (ls.get? name).isNone).entries⟩

end Labels

namespace Program

/-- The lines of both programs, those of the second counted on from the first. -/
def append (p q : Program) : Program :=
  ⟨p.lines ++ q.lines.map (Line.shift p.size), p.labels.override (q.labels.shift p.size)⟩

theorem length_splitLines (cs : List Char) : (splitLines cs).length = cs.count '\n' + 1 := by
  induction cs with
  | nil => rfl
  | cons c cs ih =>
    rw [splitLines, List.count_cons]
    obtain ⟨l, ls, hsplit⟩ := List.exists_cons_of_ne_nil (splitLines_ne_nil cs)
    by_cases h : c = '\n'
    · simp [h, ih]
    · rw [hsplit] at ih ⊢
      simpa [h] using ih

theorem size_of_load {source : String} {p : Program} (h : load source = .ok p) :
    p.size = source.toList.count '\n' + 1 := by
  obtain ⟨ls, hls, rfl⟩ := exists_lines_of_load h
  rw [size_ofLines, length_readLines hls, length_splitLines]

theorem getElem?_lines_of_load {source : String} {p : Program} (h : load source = .ok p) {i : Nat}
    {l : Line} :
    p.lines[i]? = some l ↔ ∃ text, (source.toList.splitOn '\n')[i]? = some text ∧
      Line.read i (dropReturn text) = .ok l := by
  obtain ⟨ls, hls, rfl⟩ := exists_lines_of_load h
  rw [ofLines, List.getElem?_toArray, getElem?_readLines hls, splitLines_eq_splitOn, Nat.zero_add]

end Program

end LineAsm
