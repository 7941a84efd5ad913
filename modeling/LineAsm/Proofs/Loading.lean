import LineAsm.Program

set_option autoImplicit false

/-!
# Reading lines one after another

The lines of a source are read independently of each other: where a line stands shows only in the
line numbers of its tokens and of its fault. A label stands for the last line that defines it.
-/

namespace LineAsm

def Token.shift (n : Nat) (t : Token) : Token := { t with line := t.line + n }

theorem Token.spelled_add (kind : TokenKind) (text : String) (line n : Nat) :
    spelled kind text (line + n) = (spelled kind text line).shift n := by
  cases kind <;> rfl

namespace Line

/-- The line with its tokens moved down by some lines. -/
def shift (n : Nat) (l : Line) : Line := ⟨l.head.shift n, l.operands.map (Token.shift n)⟩

theorem shift_zero (l : Line) : l.shift 0 = l := by
  have h : (Token.shift 0 : Token → Token) = id := rfl
  rw [shift, h, List.map_id]
  rfl

theorem isInert_shift (n : Nat) (l : Line) : (l.shift n).isInert = l.isInert := rfl

theorem label?_shift (n : Nat) (l : Line) : (l.shift n).label? = l.label?.map (Token.shift n) := by
  have hops : (l.shift n).operands.isEmpty = l.operands.isEmpty := List.isEmpty_map
  have hkind : (l.shift n).head.kind = l.head.kind := rfl
  rw [label?, label?, hops, hkind]
  split <;> rfl

/-- The text that a token keeps of its spelling. -/
def kept (x : TokenKind × List Char) : List Char :=
  if x.1 = .string then x.2 else x.2.map Char.toUpper

theorem token_eq (index : Nat) (x : TokenKind × List Char) :
    readWith.token index x = ⟨x.1, .ofList (kept x), index⟩ := by
  obtain ⟨kind, t⟩ := x
  unfold readWith.token Token.spelled kept
  split
  · simp_all
  · rename_i hk
    simp only [String.toList_ofList]
    rw [if_neg hk]

/-- The line that the tokens found in a text make. -/
def ofFound (index : Nat) : List (TokenKind × List Char) → Line
  | [] => skip index
  | head :: operands => ⟨readWith.token index head, operands.map (readWith.token index)⟩

theorem read_eq_ok_iff {index : Nat} {text : List Char} {l : Line} :
    read index text = .ok l ↔
      ∃ found, scan Pattern.table (beforeComment text) = .ok found ∧
        found.length ≤ maxOperands + 1 ∧ l = ofFound index found := by
  unfold read readWith
  cases scan Pattern.table (beforeComment text) with
  | error rest => simp
  | ok found =>
    cases found with
    | nil => simp [ofFound, eq_comm]
    | cons head operands =>
      dsimp only
      split
      · rename_i h
        simp [Nat.not_le.2 h]
      · rename_i h
        simp [Nat.not_lt.1 h, ofFound, eq_comm]

theorem read_add (index n : Nat) (text : List Char) :
    read (index + n) text = (read index text).map (shift n) := by
  have htoken : readWith.token (index + n) = Token.shift n ∘ readWith.token index :=
    funext fun found => Token.spelled_add found.1 _ index n
  unfold read readWith
  rw [htoken]
  cases scan Pattern.table (beforeComment text) with
  | error rest => rfl
  | ok found =>
    cases found with
    | nil => rfl
    | cons head operands =>
      dsimp only
      split
      · rfl
      · rw [← List.map_map]
        rfl

end Line

namespace Program

theorem splitLines_eq_splitOn (cs : List Char) : splitLines cs = cs.splitOn '\n' := by
  induction cs with
  | nil => rfl
  | cons c cs ih =>
    rw [List.splitOn_cons_eq_if_modifyHead, splitLines, ih]
    obtain ⟨l, ls, hsplit⟩ := List.exists_cons_of_ne_nil (List.splitOn_ne_nil '\n' cs)
    by_cases h : c = '\n'
    · rw [if_pos h, if_pos (beq_iff_eq.2 h)]
    · rw [if_neg h, if_neg (by simpa using h), hsplit]
      rfl

theorem readLines_append (index : Nat) (xs ys : List (List Char)) :
    readLines index (xs ++ ys) =
      (readLines index xs).bind fun ls =>
        (readLines (index + xs.length) ys).map fun ms => ls ++ ms := by
  induction xs generalizing index with
  | nil =>
    rw [List.nil_append, List.length_nil, Nat.add_zero]
    cases readLines index ys <;> rfl
  | cons x xs ih =>
    simp only [List.cons_append, readLines, ih (index + 1), List.length_cons]
    rw [show index + 1 + xs.length = index + (xs.length + 1) by omega]
    cases Line.read index (dropReturn x) with
    | error f => rfl
    | ok l =>
      cases readLines (index + 1) xs with
      | error d => rfl
      | ok ls => cases readLines (index + (xs.length + 1)) ys <;> rfl

theorem readLines_cons_eq_ok {index : Nat} {text : List Char} {texts : List (List Char)}
    {ls : List Line} (h : readLines index (text :: texts) = .ok ls) :
    ∃ l ms, Line.read index (dropReturn text) = .ok l ∧ readLines (index + 1) texts = .ok ms ∧
      ls = l :: ms := by
  unfold readLines at h
  cases hl : Line.read index (dropReturn text) with
  | error f =>
    rw [hl] at h
    cases h
  | ok l =>
    rw [hl] at h
    cases hrest : readLines (index + 1) texts with
    | error d =>
      rw [hrest] at h
      cases h
    | ok ms =>
      rw [hrest] at h
      cases h
      exact ⟨l, ms, rfl, rfl, rfl⟩

/-- Reading succeeds if every line can be read at its own index. -/
theorem readLines_eq_ok_iff {index : Nat} {texts : List (List Char)} {ls : List Line} :
    readLines index texts = .ok ls ↔
      texts.mapIdx (fun i text => Line.read (index + i) (dropReturn text)) = ls.map .ok := by
  induction texts generalizing index ls with
  | nil => cases ls <;> simp [readLines]
  | cons text texts ih =>
    have hindex : (fun i text => Line.read (index + (i + 1)) (dropReturn text)) =
        fun i text => Line.read (index + 1 + i) (dropReturn text) := by
      funext i text
      rw [Nat.add_assoc, Nat.add_comm 1 i]
    rw [List.mapIdx_cons, hindex, Nat.add_zero, readLines]
    cases ls with
    | nil =>
      cases Line.read index (dropReturn text) with
      | error f => simp
      | ok l => cases readLines (index + 1) texts <;> simp [Except.map]
    | cons l ls =>
      rw [List.map_cons, List.cons.injEq, ← ih]
      cases Line.read index (dropReturn text) with
      | error f => simp
      | ok l' => cases readLines (index + 1) texts <;> simp [Except.map]

theorem getElem?_readLines {index : Nat} {texts : List (List Char)} {ls : List Line}
    (h : readLines index texts = .ok ls) {i : Nat} {l : Line} :
    ls[i]? = some l ↔
      ∃ text, texts[i]? = some text ∧ Line.read (index + i) (dropReturn text) = .ok l := by
  have hi := congrArg (·[i]?) (readLines_eq_ok_iff.1 h)
  simp only [List.getElem?_mapIdx, List.getElem?_map] at hi
  have hl : ls[i]? = some l ↔ ls[i]?.map (Except.ok (ε := Fault)) = some (.ok l) := by
    cases ls[i]? <;> simp
  rw [hl, ← hi, Option.map_eq_some_iff]

theorem length_readLines {index : Nat} {texts : List (List Char)} {ls : List Line}
    (h : readLines index texts = .ok ls) : ls.length = texts.length := by
  induction texts generalizing index ls with
  | nil =>
    cases h
    rfl
  | cons text texts ih =>
    obtain ⟨l, ms, -, hrest, rfl⟩ := readLines_cons_eq_ok h
    exact congrArg (· + 1) (ih hrest)

theorem readLines_add {index : Nat} {texts : List (List Char)} {ls : List Line}
    (h : readLines index texts = .ok ls) (n : Nat) :
    readLines (index + n) texts = .ok (ls.map (Line.shift n)) := by
  induction texts generalizing index ls with
  | nil =>
    cases h
    rfl
  | cons text texts ih =>
    obtain ⟨l, ms, hl, hrest, rfl⟩ := readLines_cons_eq_ok h
    have hnext := ih hrest
    rw [show index + 1 + n = index + n + 1 by omega] at hnext
    rw [readLines, Line.read_add, hl]
    dsimp only [Except.map]
    rw [hnext]
    rfl

theorem readLines_append_eq_ok {index : Nat} {xs ys : List (List Char)} {ls : List Line}
    (h : readLines index (xs ++ ys) = .ok ls) :
    ∃ above below, readLines index xs = .ok above ∧
      readLines (index + xs.length) ys = .ok below ∧ ls = above ++ below := by
  rw [readLines_append] at h
  cases hx : readLines index xs with
  | error d =>
    rw [hx] at h
    cases h
  | ok above =>
    cases hy : readLines (index + xs.length) ys with
    | error d =>
      rw [hx, hy] at h
      cases h
    | ok below =>
      rw [hx, hy] at h
      cases h
      exact ⟨above, below, rfl, rfl, rfl⟩

theorem exists_lines_of_load {source : String} {p : Program} (h : load source = .ok p) :
    ∃ ls, readLines 0 (splitLines source.toList) = .ok ls ∧ p = ofLines ls := by
  unfold load at h
  cases hls : readLines 0 (splitLines source.toList) with
  | error d =>
    rw [hls] at h
    cases h
  | ok ls =>
    rw [hls] at h
    cases h
    exact ⟨ls, rfl, rfl⟩

theorem size_ofLines (ls : List Line) : (ofLines ls).size = ls.length := List.size_toArray

theorem line_ofLines (ls : List Line) (i : Nat) : (ofLines ls).line i = ls[i]?.getD (.skip i) := by
  rw [line, line?, ofLines, List.getElem?_toArray]

theorem size_pos_of_load {source : String} {p : Program} (h : load source = .ok p) :
    0 < p.size := by
  obtain ⟨ls, hls, rfl⟩ := exists_lines_of_load h
  rw [size_ofLines, length_readLines hls]
  exact List.length_pos_iff.2 (splitLines_ne_nil _)

end Program

namespace Labels

theorem mem_define {ls : Labels} {name : String} {line : Nat} {e : String × Nat}
    (h : e ∈ (ls.define name line).entries) : e ∈ ls.entries ∨ e = (name, line) := by
  unfold define at h
  split at h
  · obtain ⟨d, hd, rfl⟩ := List.mem_map.1 h
    split
    · exact .inr rfl
    · exact .inl hd
  · rcases List.mem_append.1 h with h | h
    · exact .inl h
    · exact .inr (List.mem_singleton.1 h)

theorem mem_foldl_define {ds : List (String × Nat)} {ls : Labels} {e : String × Nat}
    (h : e ∈ (ds.foldl (fun ls d => ls.define d.1 d.2) ls).entries) : e ∈ ls.entries ∨ e ∈ ds := by
  induction ds generalizing ls with
  | nil => exact .inl h
  | cons d ds ih =>
    rcases ih h with h | h
    · rcases mem_define h with h | h
      · exact .inl h
      · exact .inr (List.mem_cons.2 (.inl h))
    · exact .inr (List.mem_cons_of_mem d h)

theorem mem_of_get? {ls : Labels} {name : String} {i : Nat} (h : ls.get? name = some i) :
    (name, i) ∈ ls.entries := by
  obtain ⟨es, fs, heq, -⟩ := List.lookup_eq_some_iff.1 h
  rw [heq]
  exact List.mem_append_right es List.mem_cons_self

theorem lt_of_mem_definitions {lines : List Line} {d : String × Nat} (h : d ∈ definitions lines) :
    d.2 < lines.length := by
  obtain ⟨⟨l, i⟩, hmem, hd⟩ := List.mem_filterMap.1 h
  obtain ⟨t, -, rfl⟩ := Option.map_eq_some_iff.1 hd
  exact (List.getElem?_eq_some_iff.1 (List.mem_zipIdx_iff_getElem?.1 hmem)).1

/-- Definitions whose lines are renamed give a table whose lines are renamed. -/
theorem get?_foldl_define_map {f : Nat → Nat} {ls ms : Labels}
    (h : ∀ name, ms.get? name = (ls.get? name).map f) (ds : List (String × Nat)) (name : String) :
    ((ds.map (Prod.map id f)).foldl (fun ls d => ls.define d.1 d.2) ms).get? name =
      ((ds.foldl (fun ls d => ls.define d.1 d.2) ls).get? name).map f := by
  induction ds generalizing ls ms with
  | nil => exact h name
  | cons d ds ih =>
    apply ih
    intro name
    simp only [get?_define, Prod.map_fst, Prod.map_snd, id_eq]
    split
    · rfl
    · exact h name

theorem lt_of_mem_ofLines {lines : List Line} {e : String × Nat}
    (h : e ∈ (ofLines lines).entries) : e.2 < lines.length := by
  rcases mem_foldl_define h with h | h
  · cases h
  · exact lt_of_mem_definitions h

end Labels

theorem Program.lt_of_mem_labels {source : String} {p : Program} (h : Program.load source = .ok p)
    {e : String × Nat} (he : e ∈ p.labels.entries) : e.2 < p.size := by
  obtain ⟨ls, -, rfl⟩ := exists_lines_of_load h
  rw [size_ofLines]
  exact Labels.lt_of_mem_ofLines he

end LineAsm
