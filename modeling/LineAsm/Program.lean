import LineAsm.Line

set_option autoImplicit false

/-!
# Programs

A program is the list of its lines and the table of its labels. Every line of the source is one
line of the program, counted from zero. A label names the line it stands on alone; if it is defined
more than once, the last definition counts.
-/

namespace LineAsm

/-- The lines that names stand for. Each name occurs once, in the order of first definition. -/
structure Labels where
  entries : List (String × Nat)
deriving DecidableEq

namespace Labels

def empty : Labels := ⟨[]⟩

instance : Inhabited Labels := ⟨empty⟩

def get? (ls : Labels) (name : String) : Option Nat := ls.entries.lookup name

def size (ls : Labels) : Nat := ls.entries.length

def define (ls : Labels) (name : String) (line : Nat) : Labels :=
  if (ls.get? name).isSome then
    ⟨ls.entries.map fun e => if e.1 == name then (name, line) else e⟩
  else
    ⟨ls.entries ++ [(name, line)]⟩

theorem lookup_cons_eq (name : String) (e : String × Nat) (es : List (String × Nat)) :
    (e :: es).lookup name = if name = e.1 then some e.2 else es.lookup name := by
  obtain ⟨key, line⟩ := e
  rw [List.lookup_cons]
  by_cases h : name = key
  · simp [h]
  · have hb : (name == key) = false := by simpa using h
    simp [hb, h]

theorem lookup_append_single (name key : String) (line : Nat) (es : List (String × Nat)) :
    (es ++ [(key, line)]).lookup name =
      (es.lookup name).or (if name = key then some line else none) := by
  induction es with
  | nil => simp [lookup_cons_eq]
  | cons e es ih =>
    simp only [List.cons_append, lookup_cons_eq, ih]
    by_cases h : name = e.1 <;> simp [h]

theorem lookup_replaced (name key : String) (line : Nat) (es : List (String × Nat)) :
    (es.map fun e => if e.1 == key then (key, line) else e).lookup name =
      if name = key then (es.lookup name).map fun _ => line else es.lookup name := by
  induction es with
  | nil => simp
  | cons e es ih =>
    simp only [List.map_cons, lookup_cons_eq, ih]
    by_cases hk : e.1 = key
    · by_cases hn : name = key <;> simp [hk, hn]
    · by_cases hn : name = e.1 <;> by_cases he : name = key <;> simp_all

/-- A definition counts for its own name and leaves all others alone. -/
theorem get?_define (ls : Labels) (name key : String) (line : Nat) :
    (ls.define key line).get? name = if name = key then some line else ls.get? name := by
  unfold define
  split
  · rename_i h
    rw [get?, lookup_replaced]
    by_cases hn : name = key
    · subst hn
      obtain ⟨l, hl⟩ := Option.isSome_iff_exists.1 h
      rw [if_pos rfl, if_pos rfl, show ls.entries.lookup name = some l from hl]
      rfl
    · rw [if_neg hn, if_neg hn, get?]
  · rename_i h
    rw [get?, lookup_append_single]
    by_cases hn : name = key
    · subst hn
      have hl : ls.entries.lookup name = none := Option.not_isSome_iff_eq_none.1 h
      simp [hl]
    · simp [hn, get?]

def sorted (ls : Labels) : List (String × Nat) :=
  ls.entries.mergeSort fun a b => decide (a.1 < b.1) || a.1 == b.1

def definitions (lines : List Line) : List (String × Nat) :=
  lines.zipIdx.filterMap fun (line, index) => line.label?.map fun t => (t.text, index)

def ofLines (lines : List Line) : Labels :=
  (definitions lines).foldl (fun ls d => ls.define d.1 d.2) empty

end Labels

structure Program where
  lines : Array Line
  labels : Labels
deriving DecidableEq, Inhabited

def Text.alignRight (width : Nat) (s : String) : String :=
  .ofList (List.replicate (width - s.length) ' ') ++ s

namespace Program

def size (p : Program) : Nat := p.lines.size

def line? (p : Program) (index : Nat) : Option Line := p.lines[index]?

/-- The line at an index; outside the program, a line that does nothing. -/
def line (p : Program) (index : Nat) : Line := (p.line? index).getD (.skip index)

def numbered (index : Nat) (line : Line) : String :=
  Text.alignRight 4 (toString index) ++ " " ++ line.render

def listing (p : Program) : String :=
  String.join (p.lines.toList.zipIdx.map fun (line, index) => numbered index line ++ "\n")

def splitLines : List Char → List (List Char)
  | [] => [[]]
  | c :: cs =>
    if c = '\n' then [] :: splitLines cs
    else
      match splitLines cs with
      | [] => [[c]]
      | l :: ls => (c :: l) :: ls

theorem splitLines_ne_nil (cs : List Char) : splitLines cs ≠ [] := by
  cases cs with
  | nil => simp [splitLines]
  | cons c cs =>
    unfold splitLines
    split
    · simp
    · split <;> simp

/-- Drops one carriage return from the end of a line. -/
def dropReturn (cs : List Char) : List Char :=
  if cs.getLast? = some '\r' then cs.dropLast else cs

/-- Reads lines from the given index on; the first fault decides. -/
def readLines (index : Nat) : List (List Char) → Except Diagnostic (List Line)
  | [] => .ok []
  | text :: texts =>
    match Line.read index (dropReturn text) with
    | .error fault => .error (fault.inLine index)
    | .ok line => (readLines (index + 1) texts).map (line :: ·)

def ofLines (lines : List Line) : Program := ⟨lines.toArray, .ofLines lines⟩

def load (source : String) : Except Diagnostic Program :=
  (readLines 0 (splitLines source.toList)).map ofLines

end Program

end LineAsm
