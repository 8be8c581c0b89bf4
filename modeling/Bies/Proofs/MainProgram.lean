import Bies.Proofs.MainCode
import Bies.Proofs.NumericLoading
import Bies.Proofs.SingleEmission

/-!
# Programs without functions

A numeric program is compiled to the code of `main` alone. The machine runs it to its `HLT` and prints
what the loaded statements print. Without let-ins no number is put for a name, so this is what the
program prints.
-/

namespace Bies

/-! ## The code of `main` -/

theorem Expr.plainNames_of_isNumeric : ∀ {e : Expr}, e.isNumeric = true → e.PlainNames
  | .int .., _ | .float .., _ | .ident .., _ => trivial
  | .arithmetic _ left _ right, h | .comparison _ left _ right, h => by
    simp only [isNumeric, Bool.and_eq_true] at h
    exact ⟨plainNames_of_isNumeric h.1, plainNames_of_isNumeric h.2⟩

mutual

theorem Stmt.plainNames_of_isNumeric : ∀ {stmt : Stmt}, stmt.isNumeric = true → stmt.PlainNames
  | .decl .., h | .expr .., h => Expr.plainNames_of_isNumeric h
  | .letIn .., h => by
    simp only [isNumeric, Bool.and_eq_true] at h
    exact ⟨Stmt.plainNames_of_allNumeric h.1, Stmt.plainNames_of_allNumeric h.2⟩
  | .ifThen .., h => by
    simp only [isNumeric, Bool.and_eq_true] at h
    exact ⟨Expr.plainNames_of_isNumeric h.1, Stmt.plainNames_of_allNumeric h.2⟩
  | .ifElse .., h => by
    simp only [isNumeric, Bool.and_eq_true] at h
    exact ⟨Expr.plainNames_of_isNumeric h.1.1, Stmt.plainNames_of_allNumeric h.1.2,
      Stmt.plainNames_of_allNumeric h.2⟩
  | .ifElseIf .., h => by
    simp only [isNumeric, Bool.and_eq_true] at h
    exact ⟨Expr.plainNames_of_isNumeric h.1.1, Stmt.plainNames_of_allNumeric h.1.2, plainNames_of_isNumeric h.2⟩
  | .block .., h => Stmt.plainNames_of_allNumeric h
  | .print _ [_], h => ⟨Expr.plainNames_of_isNumeric h, trivial⟩

theorem Stmt.plainNames_of_allNumeric : ∀ {statements : List Stmt}, Stmt.allNumeric statements = true →
    Stmt.AllPlainNames statements
  | [], _ => trivial
  | _ :: _, h => by
    simp only [allNumeric, Bool.and_eq_true] at h
    exact ⟨plainNames_of_isNumeric h.1, plainNames_of_allNumeric h.2⟩

end

def FunctionTable.ofMain (entries : List Node) : FunctionTable := ⟨[⟨0, mainName, [], none, entries⟩]⟩

theorem Lowering.inMain_ofMain (entries : List Node) (options : Options) :
    InMain ⟨.ofMain entries, options, 0, (FunctionTable.ofMain entries).chain 0⟩ where
  function := rfl
  chain := rfl
  table := fun {name} h => by simp [FunctionTable.get?, FunctionTable.ofMain, h.symm]

theorem FunctionTable.ofProgram_numeric {program : Program} {table : FunctionTable}
    (hn : Stmt.allNumeric program = true) (h : (ofProgram program).result = .ok table) :
    ∃ ns s entries, (Loading.loadSequence ⟨0, false⟩ program).run {} = .ok ns s ∧ table = .ofMain entries ∧
      Lowering.Plain.roots entries = ns ∧ Node.areStatements ns = true := by
  obtain ⟨s', hrun⟩ := Outcome.ofRun_eq_ok h
  simp only [Loading.load, bind_eq_ok, get_eq_ok, pure_eq_ok] at hrun
  obtain ⟨ns, s, hload, _, _, ⟨rfl, rfl⟩, _, _, _, rfl, _⟩ := hrun
  obtain ⟨entries, hroots, _, htable⟩ := Loading.loadSequence_adds
    (fun _ hstmt _ _ _ h => (Loading.loadStmt_adds (Stmt.isNumeric_of_mem hn hstmt) h).1) hload
  exact ⟨ns, s, entries, hload, htable ⟨0, mainName, [], none, []⟩ rfl, hroots,
    Loading.loadSequence_areStatements hn hload⟩

theorem Assembly.plain_main {entries : List Node} {options : Options} {assembly : Assembly}
    (hstatements : Node.areStatements (Lowering.Plain.roots entries) = true)
    (h : (plain (.ofMain entries) options).result = .ok assembly) :
    ∃ code, assembly.functions = [⟨0, mainName, 0, 0, code⟩] ∧ ∀ {V : Type} (A : Arithmetic V),
      Machine.Halts A code (Node.execAll A (Lowering.Plain.roots entries) (.initial A)).out := by
  obtain ⟨s', hrun⟩ := Outcome.ofRun_eq_ok h
  simp only [Lowering.Plain.lower, Lowering.Plain.functions, Lowering.Plain.function, FunctionTable.ofMain,
    Lowering.note, bind_eq_ok, modify_eq_ok, get_eq_ok, pure_eq_ok] at hrun
  obtain ⟨_, _, ⟨_, _, hmain, _, _, ⟨rfl, rfl⟩, rfl, rfl⟩, _, _, ⟨rfl, rfl⟩, rfl, rfl⟩ := hrun
  obtain ⟨_, _, rfl, code, s₁, hcode, rfl, rfl⟩ := hmain
  refine ⟨code ++ [.hlt], rfl, fun A => ?_⟩
  obtain ⟨F, _, _, hruns⟩ := Lowering.stmts_run A (Lowering.inMain_ofMain entries options)
    (Lowering.Plain.roots entries) hstatements (F := []) (by simp [Frame.Numeric]) _ code s₁ rfl hcode
  have hat : Code.At (code ++ [.hlt]) 0 code := by simpa using Code.at_middle [] code [.hlt]
  obtain ⟨stack, slots, hreach, _⟩ := hruns.run [] [] hat (Frame.holds_initial A)
  exact ⟨_, hreach, by simp, rfl⟩

/-! ## Without let-ins -/

namespace Scope

structure Blank (s : Scope) : Prop where
  kind : s.kind ≠ .letIn
  names : ∀ entry ∈ s.names, entry.2 = none

variable {s : Scope}

theorem Blank.insert (h : s.Blank) (name : String) : (s.insert name none).Blank where
  kind := h.kind
  names := fun entry hentry => by
    rcases List.mem_cons.mp hentry with rfl | hentry
    · rfl
    · exact h.names entry hentry

theorem Blank.forget (h : s.Blank) (name : String) : (s.forget name).Blank := by
  unfold Scope.forget
  split
  · exact h.insert name
  · exact h

end Scope

namespace ScopeStack

def Blank (s : ScopeStack) : Prop := ∀ scope ∈ s.scopes, scope.Blank

variable {s : ScopeStack}

theorem Blank.lookup (h : s.Blank) (name : String) : s.lookup name = none := by
  unfold ScopeStack.lookup
  cases hfind : s.scopes.findSome? (·.get? name) with
  | none => rfl
  | some value =>
    obtain ⟨scope, hscope, hget⟩ := List.exists_of_findSome?_eq_some hfind
    obtain ⟨_, _, hnames, -⟩ := List.lookup_eq_some_iff.mp hget
    exact (h scope hscope).names (name, value) (by simp [hnames])

theorem Blank.forget (name : String) : ∀ {scopes : List Scope}, Blank ⟨scopes⟩ → Blank ⟨forget name scopes⟩
  | [], h => h
  | scope :: rest, h => by
    obtain ⟨hscope, hrest⟩ := List.forall_mem_cons.mp h
    unfold ScopeStack.forget
    split
    next => exact List.forall_mem_cons.mpr ⟨hscope.insert name, hrest⟩
    next => exact List.forall_mem_cons.mpr ⟨hscope.forget name, Blank.forget name hrest⟩

theorem Blank.declare (h : s.Blank) (name : String) (value : Node) : (s.declare name value).Blank := by
  obtain ⟨scopes⟩ := s
  unfold ScopeStack.declare
  match scopes, h with
  | [], h => exact h
  | inner :: outer, h =>
    obtain ⟨hinner, houter⟩ := List.forall_mem_cons.mp h
    dsimp only
    split
    next hkind => exact absurd hkind hinner.kind
    next => exact List.forall_mem_cons.mpr ⟨hinner.insert name, Blank.forget name houter⟩
    next => exact List.forall_mem_cons.mpr ⟨hinner.insert name, houter⟩

theorem Blank.pushBlock (h : s.Blank) : s.pushBlock.Blank :=
  List.forall_mem_cons.mpr ⟨⟨nofun, by simp⟩, h⟩

theorem Blank.pop (h : s.Blank) : s.pop.Blank := fun scope hscope => h scope (List.mem_of_mem_tail hscope)

end ScopeStack

theorem Expr.foldsHere_of_blank {scopes : ScopeStack} (h : scopes.Blank) (limit : Nat) :
    ∀ e : Expr, e.foldsHere limit scopes = []
  | .ident _ name => by cases limit <;> simp [foldsHere, known?, Loading.knownNumber?, h.lookup name]
  | .int .. | .float .. | .str .. | .arithmetic .. | .comparison .. | .call .. | .access .. | .list .. | .lambda ..
  | .malformed .. => rfl

theorem Expr.folds_of_blank {scopes : ScopeStack} (h : scopes.Blank) (limit : Nat) :
    ∀ e : Expr, e.folds limit scopes = []
  | .arithmetic _ left _ right => by
    simp [folds, folds_of_blank h limit left, folds_of_blank h limit right, foldsHere_of_blank h]
  | .comparison _ left _ right => by simp [folds, folds_of_blank h limit left, folds_of_blank h limit right]
  | .int .. | .float .. | .str .. | .ident .. | .call .. | .access .. | .list .. | .lambda .. | .malformed .. => rfl

mutual

def Stmt.hasLetIn : Stmt → Bool
  | .letIn .. => true
  | .ifThen _ _ _ body => Stmt.anyLetIn body
  | .ifElse _ _ _ body _ other => Stmt.anyLetIn body || Stmt.anyLetIn other
  | .ifElseIf _ _ _ body link => Stmt.anyLetIn body || link.hasLetIn
  | .block _ statements => Stmt.anyLetIn statements
  | _ => false

def Stmt.anyLetIn : List Stmt → Bool
  | [] => false
  | s :: rest => s.hasLetIn || Stmt.anyLetIn rest

end

namespace Loading

section
variable {V : Type} (A : Arithmetic V)

theorem eval_of_blank {here : Place} {e : Expr} {s s' : State} {n : Node} (hn : e.isNumeric = true)
    (hs : s.scopes.Blank) (h : (loadExpr here e).run s = .ok n s') :
    s'.scopes.Blank ∧ ∀ env, n.eval A env = e.eval A env := by
  have H := loadExpr_loads hn h
  refine ⟨by rw [H.state]; exact hs, fun env => H.eval A env ?_⟩
  simp [Expr.folds_of_blank hs s.names e]

theorem execBlock_of_blank {span : Span} {statements : List Stmt} {load : Loading (List Node)} {s s' : State}
    {n : Node} (hs : s.scopes.Blank) (h : (inBlock span load).run s = .ok n s')
    (hload : ∀ {s s' ns}, s.scopes.Blank → load.run s = .ok ns s' →
      s'.scopes.Blank ∧ ∀ σ, Node.execAll A ns σ = Stmt.execAll A statements σ) :
    s'.scopes.Blank ∧ ∀ σ, n.exec A σ = Stmt.execAll A statements σ := by
  obtain ⟨ns, s₁, hns, rfl, rfl⟩ := inBlock_eq_ok h
  obtain ⟨hs₁, hns⟩ := hload hs.pushBlock hns
  exact ⟨hs₁.pop, fun σ => by rw [Node.exec, hns]⟩

mutual

theorem exec_of_blank : ∀ {stmt : Stmt} {s s' : State} {n : Node}, stmt.isNumeric = true → stmt.hasLetIn = false →
    s.scopes.Blank → (loadStmt ⟨0, false⟩ stmt).run s = .ok n s' →
      s'.scopes.Blank ∧ ∀ σ, n.exec A σ = stmt.exec A σ
  | .decl .., s, s', n, hn, _, hs, h => by
    obtain ⟨v, s₁, hv, rfl, rfl⟩ := loadStmt_decl h
    obtain ⟨hs₁, hv⟩ := eval_of_blank A hn hs hv
    exact ⟨hs₁.declare _ v, fun σ => by rw [Node.exec, Stmt.exec, hv]⟩
  | .ifThen .., s, s', n, hn, hl, hs, h => by
    simp only [Stmt.isNumeric, Bool.and_eq_true] at hn
    obtain ⟨t, s₁, b, s₂, ht, hb, rfl, rfl⟩ := loadStmt_ifThen h
    obtain ⟨hs₁, ht⟩ := eval_of_blank A hn.1 hs ht
    obtain ⟨hs₂, hb⟩ := execBlock_of_blank A hs₁ hb (execAll_of_blank hn.2 hl)
    exact ⟨hs₂, fun σ => by rw [Node.exec, Stmt.exec, ht, hb]⟩
  | .ifElse .., s, s', n, hn, hl, hs, h => by
    simp only [Stmt.isNumeric, Bool.and_eq_true] at hn
    simp only [Stmt.hasLetIn, Bool.or_eq_false_iff] at hl
    obtain ⟨t, s₁, b, s₂, o, s₃, ht, hb, ho, rfl, rfl⟩ := loadStmt_ifElse h
    obtain ⟨hs₁, ht⟩ := eval_of_blank A hn.1.1 hs ht
    obtain ⟨hs₂, hb⟩ := execBlock_of_blank A hs₁ hb (execAll_of_blank hn.1.2 hl.1)
    obtain ⟨hs₃, ho⟩ := execBlock_of_blank A hs₂ ho (execAll_of_blank hn.2 hl.2)
    exact ⟨hs₃, fun σ => by rw [Node.exec, Stmt.exec, ht, hb, ho]⟩
  | .ifElseIf .., s, s', n, hn, hl, hs, h => by
    simp only [Stmt.isNumeric, Bool.and_eq_true] at hn
    simp only [Stmt.hasLetIn, Bool.or_eq_false_iff] at hl
    obtain ⟨t, s₁, b, s₂, l, s₃, ht, hb, hlink, rfl, rfl⟩ := loadStmt_ifElseIf h
    obtain ⟨hs₁, ht⟩ := eval_of_blank A hn.1.1 hs ht
    obtain ⟨hs₂, hb⟩ := execBlock_of_blank A hs₁ hb (execAll_of_blank hn.1.2 hl.1)
    obtain ⟨hs₃, hlink⟩ := exec_of_blank hn.2 hl.2 hs₂ hlink
    exact ⟨hs₃, fun σ => by rw [Node.exec, Stmt.exec, ht, hb, hlink]⟩
  | .block .., s, s', n, hn, hl, hs, h => by
    unfold loadStmt at h
    obtain ⟨hs', hb⟩ := execBlock_of_blank A hs h (execAll_of_blank hn hl)
    exact ⟨hs', fun σ => by rw [hb, Stmt.exec]⟩
  | .print _ [value], s, s', n, hn, _, hs, h => by
    obtain ⟨v, s₁, hv, rfl, rfl⟩ := loadStmt_print h
    obtain ⟨hs₁, hv⟩ := eval_of_blank A hn hs hv
    exact ⟨hs₁, fun σ => by rw [Node.exec, Stmt.exec, hv]⟩
  | .expr value, s, s', n, hn, _, hs, h => by
    unfold loadStmt at h
    exact ⟨(eval_of_blank A hn hs h).1, fun σ => Node.exec_of_isNumeric A ((loadExpr_loads hn h).numeric hn)⟩

theorem execAll_of_blank : ∀ {statements : List Stmt} {s s' : State} {ns : List Node},
    Stmt.allNumeric statements = true → Stmt.anyLetIn statements = false → s.scopes.Blank →
      (loadBlock ⟨0, false⟩ statements).run s = .ok ns s' →
        s'.scopes.Blank ∧ ∀ σ, Node.execAll A ns σ = Stmt.execAll A statements σ
  | [], s, s', ns, _, _, hs, h => by
    obtain ⟨rfl, rfl⟩ := pure_eq_ok.mp h
    exact ⟨hs, fun σ => rfl⟩
  | stmt :: rest, s, s', ns, hn, hl, hs, h => by
    simp only [Stmt.allNumeric, Bool.and_eq_true] at hn
    simp only [Stmt.anyLetIn, Bool.or_eq_false_iff] at hl
    obtain ⟨n, s₁, ns, hstmt, hrest, rfl⟩ := loadBlock_cons h
    obtain ⟨hs₁, hstmt⟩ := exec_of_blank hn.1 hl.1 hs hstmt
    obtain ⟨hs', hrest⟩ := execAll_of_blank hn.2 hl.2 (by exact hs₁) hrest
    exact ⟨hs', fun σ => by rw [Node.execAll, Stmt.execAll, hstmt, hrest]⟩

end

theorem execSequence_of_blank : ∀ {statements : List Stmt} {s s' : State} {ns : List Node},
    Stmt.allNumeric statements = true → Stmt.anyLetIn statements = false → s.scopes.Blank →
      (loadSequence ⟨0, false⟩ statements).run s = .ok ns s' →
        ∀ σ, Node.execAll A ns σ = Stmt.execAll A statements σ
  | [], s, s', ns, _, _, _, h => by
    obtain ⟨rfl, rfl⟩ := pure_eq_ok.mp h
    exact fun σ => rfl
  | stmt :: rest, s, s', ns, hn, hl, hs, h => by
    simp only [Stmt.allNumeric, Bool.and_eq_true] at hn
    simp only [Stmt.anyLetIn, Bool.or_eq_false_iff] at hl
    obtain ⟨n, s₁, ns, hstmt, hrest, rfl⟩ := loadSequence_cons h
    obtain ⟨hs₁, hstmt⟩ := exec_of_blank A hn.1 hl.1 hs hstmt
    exact fun σ => by rw [Node.execAll, Stmt.execAll, hstmt, execSequence_of_blank hn.2 hl.2 (by exact hs₁) hrest]

end

end Loading

/-! ## Sources -/

theorem compile_eq_ok {options : Options} {source : List Char} {assembly : Assembly}
    (h : (compile options source).result = .ok assembly) : ∃ tree table, Tree.parse source = .ok tree ∧
      (FunctionTable.ofProgram (.ofTree source tree)).result = .ok table ∧
      (Assembly.ofTable table options).result = .ok assembly := by
  unfold compile Outcome.andThen Outcome.silent at h
  cases hparse : Tree.parse source with
  | error e =>
    rw [hparse] at h
    cases h
  | ok tree =>
    rw [hparse] at h
    simp only [Except.mapError, compileTree, Outcome.andThen] at h
    cases hload : (FunctionTable.ofProgram (.ofTree source tree)).result with
    | error e =>
      rw [hload] at h
      cases h
    | ok table =>
      rw [hload] at h
      exact ⟨tree, table, rfl, hload, h⟩

/-- The code of a numeric program, run by the machine, comes to its `HLT` and prints what the loaded statements
print. -/
theorem Program.halts_of_compile {options : Options} {source : List Char} {tree : Tree} {assembly : Assembly}
    (hparse : Tree.parse source = .ok tree) (hn : Stmt.allNumeric (Program.ofTree source tree) = true)
    (hcompile : (compile options source).result = .ok assembly) :
    ∃ ns s code, (Loading.loadSequence ⟨0, false⟩ (Program.ofTree source tree)).run {} = .ok ns s ∧
      assembly.functions = [⟨0, mainName, 0, 0, code⟩] ∧ ∀ {V : Type} (A : Arithmetic V),
        Machine.Halts A code (Node.execAll A ns (.initial A)).out := by
  obtain ⟨_, table, hparse', hload, hlower⟩ := compile_eq_ok hcompile
  obtain rfl : tree = _ := Except.ok.inj (hparse.symm.trans hparse')
  -- without functions no name can clash with that of a lambda, whatever the length of the source
  have hseparated := FunctionTable.separated_of_ofProgram (Stmt.plainNames_of_allNumeric hn) hload
  obtain ⟨ns, s, entries, hrun, rfl, rfl, hstatements⟩ := FunctionTable.ofProgram_numeric hn hload
  rw [Assembly.ofTable_eq_plain options hseparated] at hlower
  obtain ⟨code, hcode, hhalts⟩ := Assembly.plain_main hstatements hlower
  exact ⟨_, s, code, hrun, hcode, hhalts⟩

/-- The code of a numeric program without let-ins, run by the machine, comes to its `HLT` and prints what the
program prints. -/
theorem Program.halts_with_outputs {V : Type} (A : Arithmetic V) {options : Options} {source : List Char}
    {tree : Tree} {assembly : Assembly} (hparse : Tree.parse source = .ok tree)
    (hnumeric : Stmt.allNumeric (Program.ofTree source tree) = true)
    (hletIn : Stmt.anyLetIn (Program.ofTree source tree) = false)
    (hcompile : (compile options source).result = .ok assembly) :
    ∃ code, assembly.functions = [⟨0, mainName, 0, 0, code⟩] ∧
      Machine.Halts A code (Program.outputs A (.ofTree source tree)) := by
  obtain ⟨ns, s, code, hrun, hcode, hhalts⟩ := Program.halts_of_compile hparse hnumeric hcompile
  refine ⟨code, hcode, ?_⟩
  have hexec := Loading.execSequence_of_blank A hnumeric hletIn (by simp [ScopeStack.Blank, ScopeStack.empty]) hrun
  rw [Program.outputs, ← hexec]
  exact hhalts A

def Program.ofSource? (source : List Char) : Option Program := (Tree.parse source).toOption.map (ofTree source)

theorem Program.exists_of_ofSource? (options : Options) (source : List Char) {p : Program → Bool}
    {q : Assembly → Bool} (hp : (ofSource? source).any p = true)
    (hq : (compile options source).result.toOption.any q = true) :
    ∃ tree assembly, Tree.parse source = .ok tree ∧ p (ofTree source tree) = true ∧
      (compile options source).result = .ok assembly ∧ q assembly = true := by
  cases hcompile : (compile options source).result with
  | error e =>
    rw [hcompile] at hq
    cases hq
  | ok assembly =>
    obtain ⟨tree, _, hparse, _, _⟩ := compile_eq_ok hcompile
    rw [ofSource?, hparse] at hp
    rw [hcompile] at hq
    exact ⟨tree, assembly, hparse, hp, rfl, hq⟩

def Program.elseIfSource : List Char :=
  "let a = 1 if (a > 2) { print(a) } else if (a == 1) { { let a = a + 1 } print(a * a) } else { let b = a }
    print(a)".toList

theorem Program.halts_with_outputs_of_elseIf : ∃ tree assembly, Tree.parse elseIfSource = .ok tree ∧
    Stmt.allNumeric (ofTree elseIfSource tree) = true ∧ Stmt.anyLetIn (ofTree elseIfSource tree) = false ∧
    (compile {} elseIfSource).result = .ok assembly ∧
    ∃ code, assembly.functions = [⟨0, mainName, 0, 0, code⟩] ∧ Machine.Halts .whole code [some 4, some 2] := by
  obtain ⟨tree, assembly, hparse, hp, hcompile, -⟩ := exists_of_ofSource? {} elseIfSource
    (p := fun p => Stmt.allNumeric p && !Stmt.anyLetIn p && Program.outputs .whole p = [some 4, some 2])
    (q := fun _ => true) (by decide +kernel) (by decide +kernel)
  simp only [Bool.and_eq_true, decide_eq_true_eq, Bool.not_eq_true'] at hp
  obtain ⟨⟨hnumeric, hletIn⟩, houtputs⟩ := hp
  obtain ⟨code, hcode, hhalts⟩ := halts_with_outputs .whole hparse hnumeric hletIn hcompile
  exact ⟨tree, assembly, hparse, hnumeric, hletIn, hcompile, code, hcode, houtputs ▸ hhalts⟩

end Bies
