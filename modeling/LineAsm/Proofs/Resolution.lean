import LineAsm.Proofs.Control
import LineAsm.Proofs.Loading
import Mathlib.Control.Monad.Basic
import Mathlib.Data.List.Induction

set_option autoImplicit false

/-!
# Where labels lead

A label is defined by a line that has nothing else on it, and the last such line counts. A jump to a
label, or a call of it, goes on where a machine that came to that line would go on.
-/

namespace LineAsm

/-- The tokens written on a line of a source, with their texts as they are spelled. -/
def written (source : String) (i : Nat) : List (TokenKind × List Char) :=
  match (source.toList.splitOn '\n')[i]? with
  | none => []
  | some text =>
    (Line.scan Pattern.table (Line.beforeComment (Program.dropReturn text))).toOption.getD []

/-- The line has a single token, a label, and it spells the name in some letter case. -/
def Defines (source name : String) (i : Nat) : Prop :=
  ∃ label, written source i = [(.label, label)] ∧ String.ofList (label.map Char.toUpper) = name

/-- The line has an opcode and a label, which spells the name in some letter case. -/
def Refers (source : String) (op : Opcode) (name : String) (i : Nat) : Prop :=
  ∃ word label, written source i = [(.opcode op, word), (.label, label)] ∧
    String.ofList (label.map Char.toUpper) = name

/-! ### Tables of labels -/

namespace Labels

def defined (ls : List Line) (i : Nat) : Option String :=
  (ls[i]?.bind Line.label?).map Token.text

theorem defined_concat (ls : List Line) (l : Line) (i : Nat) :
    defined (ls ++ [l]) i =
      if i = ls.length then l.label?.map Token.text else defined ls i := by
  unfold defined
  rw [List.getElem?_append]
  split
  · rename_i hlt
    rw [if_neg (Nat.ne_of_lt hlt)]
  · rename_i hge
    split
    · rename_i heq
      rw [heq, Nat.sub_self]
      rfl
    · rw [List.getElem?_eq_none (by simp; omega), List.getElem?_eq_none (by omega)]

theorem ofLines_concat (ls : List Line) (l : Line) :
    ofLines (ls ++ [l]) =
      match l.label? with
      | some t => (ofLines ls).define t.text ls.length
      | none => ofLines ls := by
  unfold ofLines definitions
  rw [List.zipIdx_append, List.filterMap_append, List.foldl_append]
  cases h : l.label? <;> simp [h]

theorem get?_ofLines_concat (ls : List Line) (l : Line) (name : String) :
    (ofLines (ls ++ [l])).get? name =
      if l.label?.map Token.text = some name then some ls.length else (ofLines ls).get? name := by
  rw [ofLines_concat]
  cases h : l.label? with
  | none => simp
  | some t => simp [get?_define, eq_comm]

theorem lt_of_defined {ls : List Line} {name : String} {i : Nat} (h : defined ls i = some name) :
    i < ls.length := by
  obtain ⟨t, ht, -⟩ := Option.map_eq_some_iff.1 h
  obtain ⟨l, hl, -⟩ := Option.bind_eq_some_iff.1 ht
  exact (List.getElem?_eq_some_iff.1 hl).1

theorem defined_concat_iff {ls : List Line} {l : Line} {name : String}
    (hl : l.label?.map Token.text ≠ some name) (i : Nat) :
    defined (ls ++ [l]) i = some name ↔ defined ls i = some name := by
  rw [defined_concat]
  split
  · rename_i heq
    refine ⟨fun h => absurd h hl, fun h => ?_⟩
    exact absurd heq (Nat.ne_of_lt (lt_of_defined h))
  · rfl

/-- The last line that defines a label counts. -/
theorem get?_ofLines_eq_some_iff {ls : List Line} {name : String} {i : Nat} :
    (ofLines ls).get? name = some i ↔
      defined ls i = some name ∧ ∀ j, i < j → defined ls j ≠ some name := by
  induction ls using List.reverseRecOn with
  | nil => simp [ofLines, definitions, empty, get?, defined]
  | append_singleton ls l ih =>
    rw [get?_ofLines_concat]
    split
    · rename_i hl
      have hlast : defined (ls ++ [l]) ls.length = some name := by
        rw [defined_concat, if_pos rfl, hl]
      constructor
      · intro h
        cases h
        refine ⟨hlast, ?_⟩
        intro j hj h
        have hlt := lt_of_defined h
        rw [List.length_append, List.length_singleton] at hlt
        omega
      · rintro ⟨hi, hlater⟩
        have hlt := lt_of_defined hi
        rw [List.length_append, List.length_singleton] at hlt
        rcases Nat.lt_or_ge i ls.length with hbefore | hge
        · exact absurd hlast (hlater ls.length hbefore)
        · rw [show i = ls.length by omega]
    · rename_i hl
      simp only [ne_eq, defined_concat_iff hl]
      exact ih

theorem get?_ofLines_eq_none_iff {ls : List Line} {name : String} :
    (ofLines ls).get? name = none ↔ ∀ i, defined ls i ≠ some name := by
  induction ls using List.reverseRecOn with
  | nil => simp [ofLines, definitions, empty, get?, defined]
  | append_singleton ls l ih =>
    rw [get?_ofLines_concat]
    split
    · rename_i hl
      refine ⟨fun h => absurd h (Option.some_ne_none _), fun h => ?_⟩
      exact absurd (by rw [defined_concat, if_pos rfl, hl]) (h ls.length)
    · rename_i hl
      simp only [ne_eq, defined_concat_iff hl]
      exact ih

end Labels

/-! ### Lines of a source -/

namespace Program

theorem line_of_load {source : String} {p : Program} (h : load source = .ok p) (i : Nat) :
    p.line i = .ofFound i (written source i) := by
  obtain ⟨ls, hls, rfl⟩ := exists_lines_of_load h
  rw [splitLines_eq_splitOn] at hls
  rw [line_ofLines, written]
  cases htext : (source.toList.splitOn '\n')[i]? with
  | none =>
    have hlen : ls.length ≤ i := by
      rw [length_readLines hls]
      exact List.getElem?_eq_none_iff.1 htext
    rw [List.getElem?_eq_none hlen]
    rfl
  | some text =>
    have hlt : i < ls.length := by
      rw [length_readLines hls]
      exact (List.getElem?_eq_some_iff.1 htext).1
    obtain ⟨l, hl⟩ : ∃ l, ls[i]? = some l := ⟨ls[i], List.getElem?_eq_getElem hlt⟩
    obtain ⟨text', htext', hread⟩ := (getElem?_readLines hls).1 hl
    obtain rfl : text = text' := Option.some.inj (htext.symm.trans htext')
    rw [Nat.zero_add] at hread
    obtain ⟨found, hscan, -, rfl⟩ := Line.read_eq_ok_iff.1 hread
    rw [hl]
    dsimp only
    rw [hscan]
    rfl

end Program

namespace Line

theorem kind_token (i : Nat) (x : TokenKind × List Char) : (readWith.token i x).kind = x.1 := by
  rw [token_eq]

theorem token_label (i : Nat) (label : List Char) :
    readWith.token i (.label, label) = ⟨.label, .ofList (label.map Char.toUpper), i⟩ := by
  rw [token_eq]
  rfl

theorem label?_ofFound {i : Nat} {found : List (TokenKind × List Char)} {name : String} :
    (ofFound i found).label?.map Token.text = some name ↔
      ∃ label, found = [(.label, label)] ∧ String.ofList (label.map Char.toUpper) = name := by
  match found with
  | [] => simp [ofFound, skip, Token.skip, label?]
  | x :: y :: found => simp [ofFound, label?]
  | [(kind, label)] =>
    by_cases hk : kind = .label
    · subst hk
      simp [ofFound, label?, token_label]
    · simp [ofFound, label?, kind_token, hk]

end Line

namespace Program

theorem defined_iff {source : String} {ls : List Line} (h : load source = .ok (ofLines ls))
    (i : Nat) (name : String) : Labels.defined ls i = some name ↔ Defines source name i := by
  have hline : Labels.defined ls i = ((ofLines ls).line i).label?.map Token.text := by
    rw [Labels.defined, line_ofLines]
    cases ls[i]? <;> rfl
  rw [hline, line_of_load h, Line.label?_ofFound]
  rfl

theorem get?_labels_eq_some_iff {source : String} {p : Program} (h : load source = .ok p)
    {name : String} {i : Nat} :
    p.labels.get? name = some i ↔
      Defines source name i ∧ ∀ j, i < j → ¬ Defines source name j := by
  obtain ⟨ls, -, rfl⟩ := exists_lines_of_load h
  simp only [← defined_iff h]
  exact Labels.get?_ofLines_eq_some_iff

theorem get?_labels_eq_none_iff {source : String} {p : Program} (h : load source = .ok p)
    {name : String} : p.labels.get? name = none ↔ ∀ i, ¬ Defines source name i := by
  obtain ⟨ls, -, rfl⟩ := exists_lines_of_load h
  simp only [← defined_iff h]
  exact Labels.get?_ofLines_eq_none_iff

theorem line_of_refers {source : String} {p : Program} (h : load source = .ok p) {op : Opcode}
    {name : String} {i : Nat} (hi : Refers source op name i) :
    (p.line i).head.kind = .opcode op ∧ (p.line i).operands[0]? = some ⟨.label, name, i⟩ := by
  obtain ⟨word, label, hwritten, rfl⟩ := hi
  rw [line_of_load h, hwritten]
  refine ⟨Line.kind_token i (.opcode op, word), ?_⟩
  rw [← Line.token_label]
  rfl

theorem line_of_defines {source : String} {p : Program} (h : load source = .ok p) {name : String}
    {i : Nat} (hi : Defines source name i) : (p.line i).head.kind = .label := by
  obtain ⟨label, hwritten, -⟩ := hi
  rw [line_of_load h, hwritten]
  exact Line.kind_token i (.label, label)

end Program

/-! ### Jumps and calls -/

namespace State

variable {δ : Type}

theorem settle_of_log {s : State δ} (hlog : s.log = []) : s.settle = s := by
  rw [settle, ← hlog]

variable [Device δ]

theorem step_of_ready {p : Program} {s : State δ} (hs : s.status = .ready) (hlog : s.log = []) :
    s.step p = ((s.plan p).run p [] s).report p s.pc := by
  simp only [step, hs, dispatch_eq_report, hlog]

theorem step_of_label {p : Program} {s : State δ} (hs : s.status = .ready) (hlog : s.log = [])
    (hline : (p.line s.pc).head.kind = .label) :
    s.step p = (.ok .stepped, { s with pc := p.following s.pc }) := by
  have hplan : s.plan p = .done .nothing := by simp only [plan, Line.plan, hline]
  rw [step_of_ready hs hlog, hplan]
  simp only [Plan.run_done, Effect.fault?, Ending.report, Effect.apply, settle_of_log hlog]

section

variable {p : Program} {s : State δ} {op : Opcode} {name : String} (hs : s.status = .ready)
  (hlog : s.log = []) (hop : op = .jump ∨ op = .call)
  (hkind : (p.line s.pc).head.kind = .opcode op)
  (hoperand : (p.line s.pc).operands[0]? = some ⟨.label, name, s.pc⟩)

include hs hlog hop hkind hoperand

theorem step_of_undefined_label (hnone : p.labels.get? name = none) :
    s.step p = (.error ⟨.undefinedLabel, some s.pc, name⟩, s) := by
  have hplan : s.plan p = .fail (.undefinedLabel name) := by
    rcases hop with rfl | rfl <;>
      simp only [plan, Line.plan, hkind, Plan.ofOpcode, hoperand, Plan.target, hnone]
  rw [step_of_ready hs hlog, hplan]
  simp only [Plan.run, Ending.report, settle_of_log hlog]
  rfl

theorem step_of_defined_label {i : Nat} (hi : p.labels.get? name = some i) (hlt : i < p.size)
    (hroom : op = .call → s.calls.isFull = false) :
    (s.step p).1 = .ok .stepped ∧ (s.step p).2.pc = p.following i := by
  rw [step_of_ready hs hlog]
  rcases hop with rfl | rfl
  · have hplan : s.plan p = .done (.jump i) := by
      simp only [plan, Line.plan, hkind, Plan.ofOpcode, hoperand, Plan.target, hi]
    rw [hplan]
    simp only [Plan.run_done, Effect.fault?, Ending.report, Effect.apply, Program.wrap_natCast hlt,
      and_self]
  · have hplan : s.plan p = .done (.call i) := by
      simp only [plan, Line.plan, hkind, Plan.ofOpcode, hoperand, Plan.target, hi]
    rw [hplan]
    simp only [Plan.run_done, Effect.fault?, hroom rfl, Bool.false_eq_true, if_false, Ending.report,
      Effect.apply, Program.wrap_natCast hlt, and_self]

end

end State

/-- A name stands for the last line that has a label of this name on it and nothing else. A machine
that is ready to jump to a label or to call it fails if no line defines the label; else, if a call
finds room on the call stack, it goes on with the first line after the label that is not inert, as
it would if it had come to the line of the label. -/
theorem label_resolution {source : String} {p : Program} (h : Program.load source = .ok p) :
    (∀ name i, p.labels.get? name = some i ↔
      Defines source name i ∧ ∀ j, i < j → ¬ Defines source name j) ∧
    (∀ name, p.labels.get? name = none ↔ ∀ i, ¬ Defines source name i) ∧
    ∀ {δ : Type} [Device δ] (s : State δ), Reachable p s → s.status = .ready →
      ∀ op name, op = .jump ∨ op = .call → Refers source op name s.pc →
        (p.labels.get? name = none →
          s.step p = (.error ⟨.undefinedLabel, some s.pc, name⟩, s)) ∧
        ∀ i, p.labels.get? name = some i → (op = .call → s.calls.isFull = false) →
          (s.step p).1 = .ok .stepped ∧ p.IsNext i (s.step p).2.pc ∧
            (s.step p).2.pc = ({ s with pc := i }.step p).2.pc := by
  refine ⟨fun name i => Program.get?_labels_eq_some_iff h,
    fun name => Program.get?_labels_eq_none_iff h, ?_⟩
  intro δ _ s hreach hs op name hop hrefers
  have hlog : s.log = [] := by simpa only [State.Consistent, hs] using hreach.consistent
  obtain ⟨hkind, hoperand⟩ := Program.line_of_refers h hrefers
  refine ⟨State.step_of_undefined_label hs hlog hop hkind hoperand, ?_⟩
  intro i hi hroom
  have hlt : i < p.size := Program.lt_of_mem_labels h (Labels.mem_of_get? hi)
  have hlabel : (p.line i).head.kind = .label :=
    Program.line_of_defines h ((Program.get?_labels_eq_some_iff h).1 hi).1
  have hexec : p.IsExecutable := (Program.isExecutable_of_opcode hkind).2
  obtain ⟨hdone, hpc⟩ := State.step_of_defined_label hs hlog hop hkind hoperand hi hlt hroom
  have hfall := State.step_of_label (s := { s with pc := i }) hs hlog hlabel
  refine ⟨hdone, hpc ▸ Program.following_isNext hexec i, ?_⟩
  rw [hpc, hfall]

/-- The label is defined twice, and the definition that counts is the last line of the program. -/
theorem label_resolution_last_line :
    let source := "jsr @b\n@B\nmov 1 r0\n @b // again"
    let p := (Program.load source).toOption.getD default
    let s := State.initial 0 (Tape.ofList [])
    Defines source "@B" 1 ∧ Defines source "@B" 3 ∧ (s.step p).1 = .ok .stepped ∧
      p.IsNext 3 (s.step p).2.pc := by
  intro source p s
  have h : Program.load source = .ok p := by decide +kernel
  have hrefers : Refers source .call "@B" s.pc :=
    ⟨"jsr".toList, "@b".toList, by decide +kernel, by decide +kernel⟩
  have hget : p.labels.get? "@B" = some 3 := by decide +kernel
  obtain ⟨hdefined, -, hgo⟩ := label_resolution h
  obtain ⟨hdone, hnext, -⟩ :=
    (hgo s (.boot (.ofSeed 0) _) rfl .call "@B" (.inr rfl) hrefers).2 3 hget
    fun _ => by decide +kernel
  exact ⟨⟨"@B".toList, by decide +kernel, by decide +kernel⟩, ((hdefined "@B" 3).1 hget).1, hdone,
    hnext⟩

end LineAsm
