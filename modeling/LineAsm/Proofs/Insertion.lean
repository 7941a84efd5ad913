import LineAsm.Proofs.Correspondence
import LineAsm.Proofs.Loading
import LineAsm.Proofs.MaximalMunch

set_option autoImplicit false

/-!
# Inserting a remark

A line of blanks, or of a comment, can be put after any line that is not a test. If the program
jumps to labels only, it runs as before: the lines below are counted one higher, and nothing else
can be told apart. After a test it is not so, as the remark would be what the test passes over.
-/

namespace LineAsm

/-- Where a line goes when another is put after line `k`. -/
def shiftPast (k i : Nat) : Nat := if i ≤ k then i else i + 1

theorem shiftPast_of_le {k i : Nat} (h : i ≤ k) : shiftPast k i = i := if_pos h

theorem shiftPast_of_lt {k i : Nat} (h : k < i) : shiftPast k i = i + 1 :=
  if_neg (Nat.not_le_of_lt h)

def Line.isTest (l : Line) : Bool :=
  match l.head.kind with
  | .opcode op => op.isTest
  | _ => false

/-- The line has no relative jump, and if it is a jump or a call, its operands are labels. -/
def Line.jumpsByLabel (l : Line) : Bool :=
  match l.head.kind with
  | .opcode .jumpBy => false
  | .opcode .jump => l.operands.all (·.kind == .label)
  | .opcode .call => l.operands.all (·.kind == .label)
  | _ => true

/-! ### Remarks -/

/-- Nothing but blanks, up to a comment if there is one. -/
def Text.isRemark : List Char → Bool
  | [] => true
  | c :: cs => isBlank c && isRemark cs || c == '/' && cs.head? == some '/'

namespace Text

theorem isRemark_cons_iff {c : Char} {cs : List Char} :
    isRemark (c :: cs) = true ↔
      isBlank c = true ∧ isRemark cs = true ∨ ∃ rest, c = '/' ∧ cs = '/' :: rest := by
  rw [isRemark, Bool.or_eq_true, Bool.and_eq_true, Bool.and_eq_true, beq_iff_eq, beq_iff_eq,
    List.head?_eq_some_iff, exists_and_left]

theorem isRemark_dropLast {cs : List Char} (h : isRemark cs = true)
    (hlast : cs.getLast? = some '\r') : isRemark cs.dropLast = true := by
  induction cs with
  | nil => rfl
  | cons c cs ih =>
    rcases isRemark_cons_iff.1 h with ⟨hblank, hrest⟩ | ⟨rest, rfl, rfl⟩
    · cases cs with
      | nil => rfl
      | cons d cs =>
        rw [List.getLast?_cons_cons] at hlast
        exact isRemark_cons_iff.2 (.inl ⟨hblank, ih hrest hlast⟩)
    · cases rest with
      | nil => cases hlast
      | cons d rest => exact isRemark_cons_iff.2 (.inr ⟨_, rfl, rfl⟩)

theorem isRemark_dropReturn {cs : List Char} (h : isRemark cs = true) :
    isRemark (Program.dropReturn cs) = true := by
  unfold Program.dropReturn
  split
  · exact isRemark_dropLast h (by assumption)
  · exact h

theorem all_isBlank_of_isRemark {cs : List Char} (h : isRemark cs = true) :
    (Line.beforeComment cs).all isBlank = true := by
  induction cs with
  | nil => rfl
  | cons c cs ih =>
    rcases isRemark_cons_iff.1 h with ⟨hblank, hrest⟩ | ⟨rest, rfl, rfl⟩
    · rw [Line.beforeComment, List.all_cons, hblank, ih hrest]
      · rfl
      · -- a slash is not blank
        rintro rest rfl
        cases hblank
    · rfl

end Text

theorem Munch.tokens_of_all_isBlank {cs : List Char} (h : cs.all Text.isBlank = true) :
    tokens cs = .ok [] := by
  induction cs with
  | nil => rw [tokens, if_pos rfl]
  | cons c cs ih =>
    rw [List.all_cons, Bool.and_eq_true] at h
    rw [tokens_cons, token?, if_pos h.1]
    exact ih h.2

theorem Line.read_of_isRemark {text : List Char} (h : Text.isRemark text = true) (index : Nat) :
    read index text = .ok (skip index) := by
  rw [read, readWith, scan, Munch.scanUpTo_eq_tokens (.refl _) le_rfl,
    Munch.tokens_of_all_isBlank (Text.all_isBlank_of_isRemark h)]

/-! ### Lines that have moved -/

theorem Token.alike_shift (n : Nat) (t : Token) : t.Alike Eq (t.shift n) :=
  ⟨rfl, fun _ => rfl, fun _ => rfl, rfl, rfl⟩

theorem Operand.alike_shift (n : Nat) (a : Option Token) :
    Operand.Alike Eq a (a.map (Token.shift n)) := by
  cases a with
  | none => exact .none
  | some t => exact .some (t.alike_shift n)

/-! ### Programs with a line inserted -/

/-- `q` is `p` with an inert line after line `k`: lines and labels have moved, but not changed. -/
structure Program.Inserted (k : Nat) (p q : Program) : Prop where
  lt : k < p.size
  size : q.size = p.size + 1
  inert : (q.line (k + 1)).isInert = true
  line : ∀ i, i < p.size → ∃ n, q.line (shiftPast k i) = (p.line i).shift n
  labels : ∀ name, q.labels.get? name = (p.labels.get? name).map (shiftPast k)
  bound : ∀ name i, p.labels.get? name = some i → i < p.size

namespace Program.Inserted

variable {k : Nat} {p q : Program}

theorem shiftPast_lt (h : p.Inserted k q) {i : Nat} (hi : i < p.size) : shiftPast k i < q.size := by
  have := h.size
  unfold shiftPast
  split <;> omega

theorem isInert_line (h : p.Inserted k q) {i : Nat} (hi : i < p.size) :
    (q.line (shiftPast k i)).isInert = (p.line i).isInert := by
  obtain ⟨n, hn⟩ := h.line i hi
  rw [hn, Line.isInert_shift]

theorem nextIndex_shiftPast (h : p.Inserted k q) {i : Nat} (hi : i < p.size) (hk : i ≠ k) :
    q.nextIndex (shiftPast k i) = shiftPast k (p.nextIndex i) := by
  have hlt := h.lt
  have hsize := h.size
  -- the last line goes on with the first one in both programs
  rcases Nat.lt_or_eq_of_le (Nat.succ_le_of_lt hi) with hinner | hlast
  · rw [nextIndex_of_lt hinner]
    rcases Nat.lt_or_gt_of_ne hk with hbefore | hafter
    · rw [shiftPast_of_le (Nat.le_of_lt hbefore), shiftPast_of_le hbefore,
        nextIndex_of_lt (by omega)]
    · rw [shiftPast_of_lt hafter, shiftPast_of_lt (by omega), nextIndex_of_lt (by omega)]
  · rw [nextIndex_of_last hlast, shiftPast_of_lt (by omega), nextIndex_of_last (by omega)]
    rfl

theorem nextIndex_of_eq (h : p.Inserted k q) : q.nextIndex k = k + 1 := by
  have hlt := h.lt
  have hsize := h.size
  exact nextIndex_of_lt (by omega)

theorem nextIndex_succ (h : p.Inserted k q) :
    q.nextIndex (k + 1) = shiftPast k (p.nextIndex k) := by
  have hsize := h.size
  rcases Nat.lt_or_eq_of_le (Nat.succ_le_of_lt h.lt) with hinner | hlast
  · rw [nextIndex_of_lt hinner, shiftPast_of_lt (Nat.lt_succ_self k), nextIndex_of_lt (by omega)]
  · rw [nextIndex_of_last hlast, nextIndex_of_last (by omega)]
    rfl

/-- From the line after a line, the inserted line is passed over if it is met. -/
theorem reaches_nextIndex (h : p.Inserted k q) {i j : Nat} (hi : i < p.size)
    (hj : q.Reaches (shiftPast k (p.nextIndex i)) j) :
    q.Reaches (q.nextIndex (shiftPast k i)) j := by
  by_cases hk : i = k
  · -- only from line `k` does counting on meet the inserted line
    subst hk
    rw [shiftPast_of_le (Nat.le_refl i), h.nextIndex_of_eq]
    exact .pass h.inert (h.nextIndex_succ ▸ hj)
  · rwa [h.nextIndex_shiftPast hi hk]

theorem reaches (h : p.Inserted k q) {i j : Nat} (hi : i < p.size) (hj : p.Reaches i j) :
    q.Reaches (shiftPast k i) (shiftPast k j) := by
  have hp : 0 < p.size := Nat.lt_of_le_of_lt (Nat.zero_le k) h.lt
  induction hj with
  | here hinert => exact .here ((h.isInert_line hi).trans hinert)
  | pass hinert _ ih =>
    have hnext := h.reaches_nextIndex hi (ih (nextIndex_lt hp _))
    exact .pass ((h.isInert_line hi).trans hinert) hnext

theorem isExecutable (h : p.Inserted k q) (hp : p.IsExecutable) : q.IsExecutable := by
  obtain ⟨i, hi, hinert⟩ := hp
  exact ⟨shiftPast k i, h.shiftPast_lt hi, (h.isInert_line hi).trans hinert⟩

theorem following (h : p.Inserted k q) (hp : p.IsExecutable) {i : Nat} (hi : i < p.size) :
    q.following (shiftPast k i) = shiftPast k (p.following i) := by
  have hnext : p.nextIndex i < p.size := nextIndex_lt (Nat.zero_lt_of_lt hi) i
  have hreach := h.reaches hnext (following_reaches hp i)
  exact (following_reaches (h.isExecutable hp) _).unique (h.reaches_nextIndex hi hreach)

theorem wrap_shiftPast (h : p.Inserted k q) {i : Nat} (hi : i < p.size) :
    q.wrap (shiftPast k i) = shiftPast k (p.wrap i) := by
  rw [wrap_natCast hi, wrap_natCast (h.shiftPast_lt hi)]

theorem effect_agrees (h : p.Inserted k q) {i : Nat} (hi : i < p.size) {op : Opcode}
    (htest : i = k → op.isTest = false) (hjump : op ≠ .jump) (hjumpBy : op ≠ .jumpBy)
    (hcall : op ≠ .call) {e : Effect} (ha : op.allows e = true) :
    e.Agrees p q (shiftPast k) i e := by
  cases e with
  | skipUnless test =>
    have hne : i ≠ k := by
      intro hik
      rw [Opcode.isTest_of_allows ha] at htest
      cases htest hik
    exact .skip test (h.nextIndex_shiftPast hi hne)
  | jump position => exact absurd (Opcode.eq_jump_of_allows ha) hjump
  | jumpBy offset => exact absurd (Opcode.eq_jumpBy_of_allows ha) hjumpBy
  | call position => exact absurd (Opcode.eq_call_of_allows ha) hcall
  | «return» => exact .return
  | _ => exact .plain rfl

/-- Where a jump or a call reads a label, the label has moved with its line. -/
theorem target_agrees (h : p.Inserted k q) {ε : Effect → Effect → Prop} {a : Option Token}
    (ha : ∀ t ∈ a, t.kind = .label) (n : Nat) {next : Int → Plan}
    (hnext : ∀ i : Nat, i < p.size → (next i).Agrees ε Eq (next (shiftPast k i : Nat))) :
    (Plan.target p.labels a next).Agrees ε Eq
      (Plan.target q.labels (a.map (Token.shift n)) next) := by
  cases a with
  | none => exact .missing _ _
  | some t =>
    obtain ⟨kind, name, line⟩ := t
    obtain rfl : kind = .label := ha _ rfl
    unfold Plan.target
    simp only [Option.map_some, Token.shift, h.labels]
    cases hl : p.labels.get? name with
    | none => exact .fail rfl
    | some i => exact hnext i (h.bound name i hl)

theorem ofOpcode_agrees (h : p.Inserted k q) {i : Nat} (hi : i < p.size) {op : Opcode}
    (htest : i = k → op.isTest = false) (hjumpBy : op ≠ .jumpBy) {a : Option Token}
    (ha : op = .jump ∨ op = .call → ∀ t ∈ a, t.kind = .label) (b : Option Token) (n : Nat) :
    (Plan.ofOpcode p.labels op a b).Agrees (Effect.Agrees p q (shiftPast k) i) Eq
      (Plan.ofOpcode q.labels op (a.map (Token.shift n)) (b.map (Token.shift n))) := by
  by_cases hjump : op = .jump
  · subst hjump
    simp only [Plan.ofOpcode]
    apply h.target_agrees (ha (.inl rfl))
    intro j hj
    exact .done (.jump (h.wrap_shiftPast hj))
  by_cases hcall : op = .call
  · subst hcall
    simp only [Plan.ofOpcode]
    apply h.target_agrees (ha (.inr rfl))
    intro j hj
    exact .done (.call (h.wrap_shiftPast hj))
  apply Plan.Agrees.ofOpcode (fun _ => rfl) (Operand.alike_shift n a) (Operand.alike_shift n b)
  · intro e he
    exact h.effect_agrees hi htest hjump hjumpBy hcall he
  · exact hjump
  · exact hcall

theorem plan_agrees (h : p.Inserted k q) {i : Nat} (hi : i < p.size)
    (htest : i = k → (p.line i).isTest = false) (hjumps : (p.line i).jumpsByLabel = true) :
    ((p.line i).plan p.labels).Agrees (Effect.Agrees p q (shiftPast k) i) Eq
      ((q.line (shiftPast k i)).plan q.labels) := by
  obtain ⟨n, hn⟩ := h.line i hi
  rw [hn]
  generalize p.line i = l at htest hjumps ⊢
  obtain ⟨⟨kind, text, line⟩, operands⟩ := l
  cases kind with
  | opcode op =>
    simp only [Line.plan, Line.shift, Token.shift, List.getElem?_map]
    apply h.ofOpcode_agrees hi htest
    · rintro rfl
      cases hjumps
    · intro hop t ht
      have hall : operands.all (·.kind == .label) = true := by
        rcases hop with rfl | rfl <;> exact hjumps
      exact eq_of_beq (List.all_eq_true.1 hall t (List.mem_of_getElem? ht))
  | label | skip => exact .done (.plain rfl)
  | _ => exact .fail rfl

theorem corresponds (h : p.Inserted k q) (hp : p.IsExecutable)
    (hjumps : ∀ i, i < p.size → (p.line i).jumpsByLabel = true)
    (htest : (p.line k).isTest = false) : p.Corresponds (shiftPast k) (fun _ => Eq) q where
  size := Nat.zero_lt_of_lt h.lt
  same _ _ := rfl
  plan i hi := h.plan_agrees hi (fun hik => hik ▸ htest) (hjumps i hi)
  following _ hi := h.following hp hi

end Program.Inserted

/-! ### Reading a source with a remark inserted -/

section

variable {k : Nat} {above below : List Line} {l : Line}

theorem Labels.definitions_insert (hk : above.length = k + 1) (hl : l.label? = none) :
    definitions (above ++ l :: below.map (Line.shift 1)) =
      (definitions (above ++ below)).map (Prod.map id (shiftPast k)) := by
  simp only [definitions, List.zipIdx_append, List.filterMap_append, List.map_append,
    List.map_filterMap, List.zipIdx_cons, List.filterMap_cons, hl, Option.map_none,
    List.zipIdx_succ, List.zipIdx_map, List.map_map, List.filterMap_map]
  congr 1
  · apply List.filterMap_congr
    rintro ⟨m, i⟩ hmem
    have hi : i < above.length := List.snd_lt_of_mem_zipIdx hmem
    have hsame : shiftPast k i = i := shiftPast_of_le (by omega)
    cases m.label? with
    | none => rfl
    | some t => simp [hsame]
  · apply List.filterMap_congr
    rintro ⟨m, i⟩ hmem
    have hi : 0 + above.length ≤ i := List.le_snd_of_mem_zipIdx hmem
    have hmoved : shiftPast k i = i + 1 := shiftPast_of_lt (by omega)
    simp only [Function.comp, Prod.map, id_eq, Line.label?_shift]
    cases m.label? with
    | none => rfl
    | some t => simp [hmoved, Token.shift]

theorem Program.inserted_ofLines (hk : above.length = k + 1) (hinert : l.isInert = true)
    (hl : l.label? = none) :
    (ofLines (above ++ below)).Inserted k (ofLines (above ++ l :: below.map (Line.shift 1))) where
  lt := by
    rw [size_ofLines, List.length_append]
    omega
  size := by
    simp only [size_ofLines, List.length_append, List.length_cons, List.length_map]
    omega
  inert := by
    rw [line_ofLines, ← hk, List.getElem?_append_right (Nat.le_refl _), Nat.sub_self]
    exact hinert
  line i hi := by
    rw [line_ofLines, line_ofLines]
    by_cases hik : i ≤ k
    · refine ⟨0, ?_⟩
      rw [shiftPast_of_le hik, List.getElem?_append_left (by omega),
        List.getElem?_append_left (by omega), Line.shift_zero]
    · obtain ⟨j, rfl⟩ : ∃ j, i = above.length + j := ⟨i - above.length, by omega⟩
      have hmoved : shiftPast k (above.length + j) = above.length + (j + 1) :=
        shiftPast_of_lt (Nat.lt_of_not_le hik)
      have hj : j < below.length := by
        rw [size_ofLines, List.length_append] at hi
        omega
      refine ⟨1, ?_⟩
      rw [hmoved, List.getElem?_append_right (Nat.le_add_right _ _),
        List.getElem?_append_right (Nat.le_add_right _ _), Nat.add_sub_cancel_left,
        Nat.add_sub_cancel_left, List.getElem?_cons_succ, List.getElem?_map,
        List.getElem?_eq_getElem hj]
      rfl
  labels name := by
    rw [ofLines, ofLines, Labels.ofLines, Labels.ofLines, Labels.definitions_insert hk hl]
    exact Labels.get?_foldl_define_map (fun _ => rfl) _ name
  bound name i hi := by
    rw [size_ofLines]
    exact Labels.lt_of_mem_ofLines (Labels.mem_of_get? hi)

end

theorem Program.load_insert {source source' : String} {p : Program} {above below : List (List Char)}
    {text : List Char} {k : Nat} (hload : load source = .ok p) (hk : above.length = k + 1)
    (htext : Text.isRemark text = true) (hsource : splitLines source.toList = above ++ below)
    (hsource' : splitLines source'.toList = above ++ text :: below) :
    ∃ q, load source' = .ok q ∧ p.Inserted k q := by
  obtain ⟨ls, hls, rfl⟩ := exists_lines_of_load hload
  rw [hsource] at hls
  obtain ⟨first, last, hfirst, hlast, rfl⟩ := readLines_append_eq_ok hls
  have hlength : first.length = k + 1 := (length_readLines hfirst).trans hk
  refine ⟨ofLines (first ++ Line.skip (0 + above.length) :: last.map (Line.shift 1)), ?_,
    inserted_ofLines hlength rfl rfl⟩
  rw [load, hsource', readLines_append, hfirst]
  dsimp only [Except.bind]
  rw [readLines, Line.read_of_isRemark (Text.isRemark_dropReturn htext)]
  dsimp only
  rw [readLines_add hlast 1]
  rfl

/-! ### The runs -/

def Diagnostic.moved (f : Nat → Nat) (d : Diagnostic) : Diagnostic :=
  { d with line := d.line.map f }

def Exchange.moved {δ : Type} (f : Nat → Nat) (x : Exchange (State δ) δ) :
    Exchange (State δ) δ where
  before := x.before.moved f
  request := x.request
  answer := x.answer.map (Except.mapError (Diagnostic.moved f))
  after := x.after.moved f

theorem AnswersAgree.eq_map {f : Nat → Nat} {a b : Option (Except Diagnostic Event)}
    (h : AnswersAgree f (fun _ => Eq) a b) : b = a.map (Except.mapError (Diagnostic.moved f)) := by
  cases h with
  | none => rfl
  | event e => rfl
  | fault h => rw [← h]; rfl

theorem Exchange.Agrees.eq_moved {δ : Type} {f : Nat → Nat} {x y : Exchange (State δ) δ}
    (h : x.Agrees f (fun _ => Eq) y) : y = x.moved f := by
  obtain ⟨before, request, answer, after⟩ := y
  obtain ⟨rfl, rfl, hanswer, rfl⟩ := h
  rw [moved, ← hanswer.eq_map]

theorem exchanges_eq_map_moved {δ : Type} {f : Nat → Nat} {xs ys : List (Exchange (State δ) δ)}
    (h : List.Forall₂ (Exchange.Agrees f fun _ => Eq) xs ys) : ys = xs.map (Exchange.moved f) := by
  induction h with
  | nil => rfl
  | cons h _ ih => rw [List.map_cons, ← ih, ← h.eq_moved]

/-- Take a source with a line that does something, without relative jumps and with jumps and calls
to labels only, and put a remark after a line that is not a test. The new source can be read, and
whatever is asked of the two machines, they answer alike and go through the same states: the lines
below the remark are counted one higher, in the program counter, on the call stack and in errors. -/
theorem inserted_remark_unseen {source source' : String} {p : Program}
    {above below : List (List Char)} {text : List Char} {k : Nat}
    (hload : Program.load source = .ok p) (hexec : p.IsExecutable)
    (hjumps : ∀ i, i < p.size → (p.line i).jumpsByLabel = true) (hk : above.length = k + 1)
    (htest : (p.line k).isTest = false) (htext : Text.isRemark text = true)
    (hsource : Program.splitLines source.toList = above ++ below)
    (hsource' : Program.splitLines source'.toList = above ++ text :: below) :
    ∃ q, Program.load source' = .ok q ∧
      ∀ {δ : Type} [Device δ] (generator : Generator) (device : δ) (rs : List (Request δ)),
        let start := State.boot generator device
        exchanges (State.serve q) start rs =
            (exchanges (State.serve p) start rs).map (Exchange.moved (shiftPast k)) ∧
          served (State.serve q) start rs =
            (served (State.serve p) start rs).moved (shiftPast k) := by
  obtain ⟨q, hq, hinserted⟩ := Program.load_insert hload hk htext hsource hsource'
  refine ⟨q, hq, ?_⟩
  intro δ _ generator device rs start
  have hrun := (hinserted.corresponds hexec hjumps htest).exchanges
    (Reachable.boot generator device : Reachable p start) rs
  -- line 0 stays where it is, and no call is underway
  have hstart : start.moved (shiftPast k) = start := by
    simp [start, State.moved, State.boot, Stack.map, Stack.empty, shiftPast]
  rw [hstart] at hrun
  exact ⟨exchanges_eq_map_moved hrun.1, hrun.2⟩

/-- The call saves the line above the remark, and the return comes back below it. -/
theorem inserted_remark_unseen_after_call :
    let p := (Program.load "jsr @f\nmov in out\n@f\nret").toOption.getD default
    let start := State.initial 0 (Tape.ofList [])
    let rs := [.call .step, .call .step, .call .step]
    Program.load "jsr @f\nmov in out\n@f\nret" = .ok p ∧ Text.isRemark " // go on".toList = true ∧
      ∃ q, Program.load "jsr @f\n // go on\nmov in out\n@f\nret" = .ok q ∧
        exchanges (State.serve q) start rs =
          (exchanges (State.serve p) start rs).map (Exchange.moved (shiftPast 0)) := by
  intro p start rs
  have hp : Program.load "jsr @f\nmov in out\n@f\nret" = .ok p := by decide +kernel
  have htext : Text.isRemark " // go on".toList = true := by decide +kernel
  have hexec : p.IsExecutable := ⟨0, by decide +kernel, by decide +kernel⟩
  obtain ⟨q, hq, h⟩ := inserted_remark_unseen hp hexec (by decide +kernel)
    (rfl : ["jsr @f".toList].length = 0 + 1) (by decide +kernel) htext
    (show _ = _ ++ ["mov in out".toList, "@f".toList, "ret".toList] by decide +kernel)
    (by decide +kernel : Program.splitLines
      "jsr @f\n // go on\nmov in out\n@f\nret".toList = _)
  exact ⟨hp, htext, q, hq, (h (.ofSeed 0) (Tape.ofList []) rs).1⟩

/-- After a test, the remark is what the test passes over. -/
example :
    let after source := (served (State.serve ((Program.load source).toOption.getD default))
      (State.initial 0 (Tape.ofList [])) [.call .step, .call .step]).registers
    (after "teq 1 2\nmov 1 r0\nmov 2 r1").get (.general 0) ≠
      (after "teq 1 2\n\nmov 1 r0\nmov 2 r1").get (.general 0) := by
  decide +kernel

end LineAsm
