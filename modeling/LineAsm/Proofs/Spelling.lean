import LineAsm.Proofs.Correspondence
import LineAsm.Proofs.Loading
import Mathlib.Control.Monad.Basic

set_option autoImplicit false

/-!
# Spelling

Many words can be spelled in more than one way, in any letter case, and with any blanks, comments
and quotes around them. A machine goes by the kinds of tokens and by the texts of literals and
labels. Programs that agree on these run alike; a spelling shows only in the text of a diagnostic
that names a word of the line.
-/

namespace LineAsm

/-- The kinds of tokens whose texts count: literals and labels. -/
def TokenKind.isLiteral : TokenKind → Bool
  | .string => true
  | .number => true
  | .label => true
  | _ => false

/-- What a token says, however it is spelled. -/
def Token.meaning (t : Token) : TokenKind × Option String :=
  (t.kind, if t.kind.isLiteral then some t.text else none)

def Line.meaning (l : Line) : List (TokenKind × Option String) := l.tokens.map Token.meaning

def Program.meaning (p : Program) : List (List (TokenKind × Option String)) :=
  p.lines.toList.map Line.meaning

/-- Answers that are the same but for the spelling of a word: where one of them shows a word of the
line at fault, the other shows the word at the same place of its line. -/
inductive AnswersRespelled (p q : Program) :
    Option (Except Diagnostic Event) → Option (Except Diagnostic Event) → Prop where
  | same (a : Option (Except Diagnostic Event)) : AnswersRespelled p q a a
  | shown {kind : FaultClass} {i k : Nat} {t t' : Token}
      (hkind : kind = .unknownInstruction ∨ kind = .invalidSource ∨ kind = .invalidDestination)
      (ht : (p.line i).tokens[k]? = some t) (ht' : (q.line i).tokens[k]? = some t') :
      AnswersRespelled p q (some (.error ⟨kind, some i, t.render⟩))
        (some (.error ⟨kind, some i, t'.render⟩))

/-- Exchanges of two machines in the same states, with answers that differ in spelling only. -/
structure Exchange.Respelled {δ : Type} (p q : Program) (x y : Exchange (State δ) δ) : Prop where
  before : y.before = x.before
  request : y.request = x.request
  answer : AnswersRespelled p q x.answer y.answer
  after : y.after = x.after

def Fault.Respelled (p q : Program) (i : Nat) (x x' : Fault) : Prop :=
  AnswersRespelled p q (some (.error (x.inLine i))) (some (.error (x'.inLine i)))

/-! ### Tokens and lines -/

theorem Token.kind_eq_of_meaning {t t' : Token} (h : t'.meaning = t.meaning) : t'.kind = t.kind :=
  congrArg Prod.fst h

theorem Token.text_eq_of_meaning {t t' : Token} (h : t'.meaning = t.meaning)
    (hk : t.kind.isLiteral = true) : t'.text = t.text := by
  have htext := congrArg Prod.snd h
  rw [meaning, meaning, kind_eq_of_meaning h, hk] at htext
  exact Option.some.inj htext

namespace Line

theorem head_meaning {l l' : Line} (h : l'.meaning = l.meaning) :
    l'.head.meaning = l.head.meaning := (List.cons.inj h).1

theorem operands_meaning {l l' : Line} (h : l'.meaning = l.meaning) (k : Nat) :
    l'.operands[k]?.map Token.meaning = l.operands[k]?.map Token.meaning := by
  rw [← List.getElem?_map, ← List.getElem?_map]
  exact congrArg (·[k]?) (List.cons.inj h).2

theorem isInert_of_meaning {l l' : Line} (h : l'.meaning = l.meaning) :
    l'.isInert = l.isInert := by
  rw [isInert, isInert, Token.isInert, Token.isInert, Token.kind_eq_of_meaning (head_meaning h)]

def definedName : List (TokenKind × Option String) → Option String
  | [(.label, name)] => name
  | _ => none

theorem label?_eq_definedName (l : Line) :
    l.label?.map Token.text = definedName l.meaning := by
  obtain ⟨⟨kind, text, line⟩, operands⟩ := l
  cases operands with
  | cons t ts =>
    rw [meaning, tokens, List.map_cons, List.map_cons, definedName]
    · rfl
    · simp
  | nil =>
    cases kind with
    | label => rfl
    | _ => rfl

end Line

theorem Labels.ofLines_of_meaning {ls ms : List Line}
    (h : ms.map Line.meaning = ls.map Line.meaning) : ofLines ms = ofLines ls := by
  have hnames : ∀ ks : List Line, definitions ks =
      ((ks.map Line.meaning).map Line.definedName).zipIdx.filterMap
        fun (name, i) => name.map fun n => (n, i) := by
    intro ks
    rw [definitions, List.map_map, List.zipIdx_map, List.filterMap_map]
    apply List.filterMap_congr
    rintro ⟨l, i⟩ -
    simp [← Line.label?_eq_definedName, Function.comp_def]
  rw [ofLines, ofLines, hnames, hnames, h]

/-! ### Programs -/

namespace Program

variable {p q : Program}

theorem size_of_meaning (h : q.meaning = p.meaning) : q.size = p.size := by
  simpa [meaning, size] using congrArg List.length h

theorem line_of_meaning (h : q.meaning = p.meaning) (i : Nat) :
    (q.line i).meaning = (p.line i).meaning := by
  have hi := congrArg (·[i]?) h
  simp only [meaning, List.getElem?_map, Array.getElem?_toList] at hi
  unfold line line?
  cases hp : p.lines[i]? <;> cases hq : q.lines[i]? <;> simp_all

theorem sameLayout_of_meaning (h : q.meaning = p.meaning) : p.SameLayout q :=
  ⟨size_of_meaning h, fun i _ => Line.isInert_of_meaning (line_of_meaning h i)⟩

theorem labels_of_meaning {source source' : String} (hp : load source = .ok p)
    (hq : load source' = .ok q) (h : q.meaning = p.meaning) : q.labels = p.labels := by
  obtain ⟨ls, -, rfl⟩ := exists_lines_of_load hp
  obtain ⟨ms, -, rfl⟩ := exists_lines_of_load hq
  exact Labels.ofLines_of_meaning h

end Program

namespace Fault.Respelled

variable {p q : Program}

theorem refl (i : Nat) (x : Fault) : Respelled p q i x x := .same _

theorem alike (h : q.meaning = p.meaning) (i k : Nat) :
    Operand.Alike (Respelled p q i) (p.line i).operands[k]? (q.line i).operands[k]? := by
  have hk := Line.operands_meaning (Program.line_of_meaning h i) k
  cases ht : (p.line i).operands[k]? with
  | none =>
    rw [ht] at hk
    rw [Option.map_eq_none_iff.1 hk]
    exact .none
  | some t =>
    rw [ht] at hk
    obtain ⟨t', ht', hmeaning⟩ := Option.map_eq_some_iff.1 hk
    rw [ht']
    refine .some ⟨Token.kind_eq_of_meaning hmeaning, ?_, ?_, ?_, ?_⟩
    · intro hkind
      exact Token.text_eq_of_meaning hmeaning (by rw [hkind]; rfl)
    · intro hkind
      exact Token.text_eq_of_meaning hmeaning (by rw [hkind]; rfl)
    -- the operands come after the head of the line
    · exact .shown (k := k + 1) (.inr (.inl rfl)) ht ht'
    · exact .shown (k := k + 1) (.inr (.inr rfl)) ht ht'

end Fault.Respelled

/-! ### Plans -/

namespace Plan.Agrees

variable {ε : Effect → Effect → Prop} {φ : Fault → Fault → Prop}

theorem ofTarget (hφ : ∀ x, φ x x) {labels : Labels} {a a' : Option Token} {next : Int → Plan}
    (ha : Operand.Alike φ a a') (hname : a'.map Token.meaning = a.map Token.meaning)
    (h : ∀ i, (next i).Agrees ε φ (next i)) :
    (target labels a next).Agrees ε φ (target labels a' next) := by
  cases ha with
  | none => exact .missing _ _
  | @some t t' ht =>
    have hmeaning : t'.meaning = t.meaning := Option.some.inj hname
    obtain ⟨kind, name, line⟩ := t
    obtain ⟨kind', name', line'⟩ := t'
    obtain rfl : kind' = kind := ht.kind
    cases kind' with
    | label =>
      obtain rfl : name' = name := Token.text_eq_of_meaning hmeaning rfl
      unfold target
      dsimp only
      cases labels.get? name' with
      | none => exact .fail (hφ _)
      | some i => exact h i
    | _ => exact ofReadNumber hφ (.some ht) fun n => h _

end Plan.Agrees

namespace Program

variable {p q : Program}

theorem SameLayout.effect_agrees (h : p.SameLayout q) (i : Nat) (e : Effect) :
    e.Agrees p q id i e := by
  cases e with
  | skipUnless test => exact .skip test (h.nextIndex_eq i)
  | jump position => exact .jump (h.wrap_eq position)
  | jumpBy offset =>
    generalize hposition : Effect.relative i offset = position
    refine .jumpBy ?_
    rw [id, id, hposition]
    exact h.wrap_eq position
  | call position => exact .call (h.wrap_eq position)
  | «return» => exact .return
  | _ => exact .plain rfl

theorem plan_respelled (h : q.meaning = p.meaning) (hlabels : q.labels = p.labels) (i : Nat) :
    ((p.line i).plan p.labels).Agrees (Effect.Agrees p q id i) (Fault.Respelled p q i)
      ((q.line i).plan q.labels) := by
  have hε := (sameLayout_of_meaning h).effect_agrees i
  have hφ := Fault.Respelled.refl (p := p) (q := q) i
  have ha := Fault.Respelled.alike h i 0
  have hb := Fault.Respelled.alike h i 1
  have hname := Line.operands_meaning (line_of_meaning h i) 0
  have hhead := Token.kind_eq_of_meaning (Line.head_meaning (line_of_meaning h i))
  unfold Line.plan
  rw [hhead, hlabels]
  cases (p.line i).head.kind with
  | opcode op =>
    by_cases hjump : op = .jump
    · subst hjump
      exact Plan.Agrees.ofTarget hφ ha hname fun position => .done (hε _)
    by_cases hcall : op = .call
    · subst hcall
      exact Plan.Agrees.ofTarget hφ ha hname fun position => .done (hε _)
    exact Plan.Agrees.ofOpcode hφ ha hb (fun e _ => hε e) hjump hcall
  | label | skip => exact .done (hε _)
  | _ => exact .fail (.shown (k := 0) (.inl rfl) rfl rfl)

theorem corresponds_of_meaning (hp : 0 < p.size) (h : q.meaning = p.meaning)
    (hlabels : q.labels = p.labels) : p.Corresponds id (Fault.Respelled p q) q where
  size := hp
  same := Fault.Respelled.refl
  plan i _ := plan_respelled h hlabels i
  following i _ := (sameLayout_of_meaning h).following_eq i

end Program

/-! ### Runs -/

theorem State.moved_id {δ : Type} (s : State δ) : s.moved id = s := by
  rw [moved, Stack.map, Array.map_id_fun]
  rfl

theorem AnswersAgree.respelled {p q : Program} {a b : Option (Except Diagnostic Event)}
    (h : AnswersAgree id (Fault.Respelled p q) a b) : AnswersRespelled p q a b := by
  cases h with
  | none => exact .same _
  | event e => exact .same _
  | fault h => exact h

theorem Exchange.Agrees.respelled {δ : Type} {p q : Program} {x y : Exchange (State δ) δ}
    (h : x.Agrees id (Fault.Respelled p q) y) : x.Respelled p q y :=
  ⟨h.before.trans x.before.moved_id, h.request, h.answer.respelled, h.after.trans x.after.moved_id⟩

/-- Take two sources whose programs have the same lines but for the spelling of words: tokens of the
same kinds, and the same texts of strings, numbers and labels. Whatever is asked of the two
machines, they go through the same states and answer alike, except that a diagnostic which shows a
word of its line shows it as it is spelled there. -/
theorem respelled_program_runs_alike {source source' : String} {p q : Program}
    (hp : Program.load source = .ok p) (hq : Program.load source' = .ok q)
    (h : q.meaning = p.meaning) {δ : Type} [Device δ] (generator : Generator) (device : δ)
    (rs : List (Request δ)) :
    let start := State.boot generator device
    List.Forall₂ (Exchange.Respelled p q) (exchanges (State.serve p) start rs)
        (exchanges (State.serve q) start rs) ∧
      served (State.serve q) start rs = served (State.serve p) start rs := by
  intro start
  have hsame := Program.corresponds_of_meaning (Program.size_pos_of_load hp) h
    (Program.labels_of_meaning hp hq h)
  obtain ⟨hexchanges, hserved⟩ :=
    hsame.exchanges (Reachable.boot generator device : Reachable p start) rs
  rw [State.moved_id] at hexchanges hserved
  exact ⟨hexchanges.imp fun _ _ hx => hx.respelled, hserved.trans (State.moved_id _)⟩

/-- Other words, letter case, blanks, quotes and a comment; the last line is at fault in both. -/
theorem respelled_program_runs_alike_to_a_fault :
    let source := "mul 2 '3'\njmp @a\n@a\npsh 1"
    let source' := "MULT 2  \"3\" // product\n JUMP @A\n@A\npush 1"
    let p := (Program.load source).toOption.getD default
    let q := (Program.load source').toOption.getD default
    let start := State.initial 0 (Tape.ofList [])
    let rs := [.call .step, .call .step, .call .step]
    let last (p : Program) := (exchanges (State.serve p) start rs)[2]?.bind Exchange.answer
    q.meaning = p.meaning ∧ last p = some (.error ⟨.unknownInstruction, some 3, "PSH"⟩) ∧
      last q = some (.error ⟨.unknownInstruction, some 3, "PUSH"⟩) ∧
      List.Forall₂ (Exchange.Respelled p q) (exchanges (State.serve p) start rs)
        (exchanges (State.serve q) start rs) := by
  intro source source' p q start rs last
  have hp : Program.load source = .ok p := by decide +kernel
  have hq : Program.load source' = .ok q := by decide +kernel
  have h : q.meaning = p.meaning := by decide +kernel
  have hrun := respelled_program_runs_alike hp hq h (.ofSeed 0) (Tape.ofList []) rs
  exact ⟨h, by decide +kernel, by decide +kernel, hrun.1⟩

end LineAsm
