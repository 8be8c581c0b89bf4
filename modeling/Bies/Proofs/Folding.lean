import Bies.Proofs.Straight

/-!
# Numbers put for names

While a straight program is loaded, a number may be put for a name, because the name is known to stand
for it, maybe by way of other names. This is right exactly if the name then has the value of the last of
them, its origin. It need not: a name that was given the value of another one does not follow the other
when that is declared anew.
-/

namespace Bies

open Loading

def Fold.Current {V : Type} (env : String → V) (f : Fold) : Prop := env f.name = env f.origin

/-! ## Where numbers are put -/

def Loading.stateAfter {α : Type} (x : Loading α) (s : State) : State :=
  match x.run s with
  | .ok _ s' | .error _ s' => s'

section
variable {V : Type} (A : Arithmetic V)

mutual

/-- The names for which a number is put in a statement of `main` that is loaded from the state `s`, each with
the variables as they are when the statement comes to it, if they are `σ.env` before. -/
def Stmt.folds : Stmt → State → Store V → List (Fold × (String → V))
  | .decl _ _ _ value, s, σ | .print _ [value], s, σ => (value.folds s.names s.scopes).map (·, σ.env)
  | .letIn _ decls _ body, s, σ =>
    let inner := { s with scopes := s.scopes.pushLetIn }
    Stmt.foldsAll (loadBlock ⟨0, false⟩) decls inner σ ++
      Stmt.foldsAll (loadBlock ⟨0, false⟩) body (stateAfter (loadBlock ⟨0, false⟩ decls) inner)
        (Stmt.execAll A decls σ)
  | .block _ statements, s, σ =>
    Stmt.foldsAll (loadBlock ⟨0, false⟩) statements { s with scopes := s.scopes.pushBlock } σ
  | _, _, _ => []

def Stmt.foldsAll (load : List Stmt → Loading (List Node)) : List Stmt → State → Store V →
    List (Fold × (String → V))
  | [], _, _ => []
  | stmt :: rest, s, σ =>
    stmt.folds s σ ++ Stmt.foldsAll load rest (stateAfter (load [stmt]) s) (stmt.exec A σ)

end

def Program.folds (program : Program) : List (Fold × (String → V)) :=
  Stmt.foldsAll A (loadSequence ⟨0, false⟩) program {} (.initial A)

end

/-! ## What the scopes know -/

theorem Node.eval_of_number? {V : Type} (A : Arithmetic V) (env : String → V) :
    ∀ {n : Node} {k : Number}, n.number? = some k → n.eval A env = A.ofNumber k
  | .int .., k, h | .float .., k, h => by
    obtain rfl := Option.some.inj h
    rfl

theorem ScopeStack.lookup_origin {scopes : ScopeStack} {k : Number} : ∀ {limit : Nat} {tag : Tag} {name : String},
    knownNumber? scopes limit (.ident tag name) = some k →
      ∃ n, scopes.lookup (scopes.origin limit name) = some n ∧ n.number? = some k
  | limit + 1, tag, name, h => by
    obtain ⟨n, hn, hk⟩ := Option.bind_eq_some_iff.mp h
    unfold origin
    rw [hn]
    cases n with
    | ident _ other => exact lookup_origin hk
    | int _ i => exact ⟨_, hn, by simpa [knownNumber?, Node.number?] using hk⟩
    | float _ x => exact ⟨_, hn, by simpa [knownNumber?, Node.number?] using hk⟩
    | _ => simp [knownNumber?] at hk

section
variable {V : Type} (A : Arithmetic V)

/-- A name declared with a number has it as its value. -/
structure Scope.Valid (env : String → V) (s : Scope) : Prop where
  kind : s.kind ≠ .function
  names : ∀ {name n k}, s.get? name = some (some n) → n.number? = some k → env name = A.ofNumber k

def ScopeStack.Valid (env : String → V) (s : ScopeStack) : Prop := ∀ scope ∈ s.scopes, scope.Valid A env

variable {A} {σ : Store V} {v : V} {name : String}

theorem Scope.Valid.insert {s : Scope} (h : s.Valid A σ.env) {value : Option Node}
    (hv : ∀ {n k}, value = some n → n.number? = some k → v = A.ofNumber k) :
    (s.insert name value).Valid A (σ.set name v).env where
  kind := h.kind
  names {other n k} hget hk := by
    rw [get?_insert] at hget
    by_cases hother : other = name
    · rw [if_pos hother] at hget
      simpa [Store.set, hother] using hv (Option.some.inj hget) hk
    · rw [if_neg hother] at hget
      simpa [Store.set, hother] using h.names hget hk

theorem Scope.Valid.forget {s : Scope} (h : s.Valid A σ.env) : (s.forget name).Valid A (σ.set name v).env := by
  unfold Scope.forget
  split
  next => exact h.insert nofun
  next hnone =>
    refine ⟨h.kind, fun {other n k} hget hk => ?_⟩
    by_cases hother : other = name
    · subst hother
      simp [hget] at hnone
    · simpa [Store.set, hother] using h.names hget hk

namespace ScopeStack

theorem Valid.forget : ∀ {scopes : List Scope}, Valid A σ.env ⟨scopes⟩ →
    Valid A (σ.set name v).env ⟨forget name scopes⟩
  | [], _ => nofun
  | scope :: rest, h => by
    obtain ⟨hscope, hrest⟩ := List.forall_mem_cons.mp h
    unfold ScopeStack.forget
    -- there is no function to stop at
    rw [if_neg hscope.kind]
    exact List.forall_mem_cons.mpr ⟨hscope.forget, Valid.forget hrest⟩

section
variable {s : ScopeStack} {env : String → V}

theorem Valid.declare (h : s.Valid A σ.env) {value : Node} (hv : value.eval A σ.env = v) :
    (s.declare name value).Valid A (σ.set name v).env := by
  obtain ⟨scopes⟩ := s
  unfold ScopeStack.declare
  match scopes, h with
  | [], _ => nofun
  | inner :: outer, h =>
    obtain ⟨hinner, houter⟩ := List.forall_mem_cons.mp h
    dsimp only
    split
    -- only a let-in keeps the node; all scopes around it forget the name
    next =>
      refine List.forall_mem_cons.mpr ⟨hinner.insert fun {n k} hn hk => ?_, Valid.forget houter⟩
      obtain rfl := Option.some.inj hn
      rw [← hv, Node.eval_of_number? A _ hk]
    next => exact List.forall_mem_cons.mpr ⟨hinner.insert nofun, Valid.forget houter⟩
    next hkind => exact absurd hkind hinner.kind

theorem Valid.push (h : s.Valid A env) {kind : ScopeKind}
    (hkind : kind ≠ .function) : (s.push kind []).Valid A env :=
  List.forall_mem_cons.mpr ⟨⟨hkind, by simp [Scope.get?]⟩, h⟩

theorem Valid.pop (h : s.Valid A env) : s.pop.Valid A env :=
  fun scope hscope => h scope (List.mem_of_mem_tail hscope)

theorem Valid.lookup (h : s.Valid A env) {n : Node} {k : Number}
    (hn : s.lookup name = some n) (hk : n.number? = some k) : env name = A.ofNumber k := by
  obtain ⟨scope, hscope, hget⟩ := List.exists_of_findSome?_eq_some (Option.join_eq_some_iff.mp hn)
  exact (h scope hscope).names hget hk

end

end ScopeStack

/-! ## Numbers put rightly -/

theorem Expr.foldsHere_valid {limit : Nat} {scopes : ScopeStack} {env : String → V} (h : scopes.Valid A env) :
    ∀ {e : Expr}, ∀ f ∈ e.foldsHere limit scopes, env f.origin = A.ofNumber f.number
  | .ident span name, f, hf => by
    obtain ⟨k, hk, rfl⟩ : ∃ k, (Expr.ident span name).known? limit scopes = some k ∧
        ⟨name, scopes.origin limit name, k⟩ = f := by simpa [foldsHere] using hf
    obtain ⟨n, hn, hnumber⟩ := ScopeStack.lookup_origin hk
    exact h.lookup hn hnumber
  | .int .., f, hf | .float .., f, hf | .str .., f, hf | .arithmetic .., f, hf | .comparison .., f, hf
  | .call .., f, hf | .access .., f, hf | .list .., f, hf | .lambda .., f, hf | .malformed .., f, hf => by
    cases hf

/-- Where the scopes are valid, the origin of a name has the number that is put for the name. -/
theorem Expr.folds_valid {limit : Nat} {scopes : ScopeStack} {env : String → V} (h : scopes.Valid A env) :
    ∀ {e : Expr}, ∀ f ∈ e.folds limit scopes, env f.origin = A.ofNumber f.number
  | .arithmetic _ left _ right, f, hf => by
    rcases List.mem_append.mp hf with hf | hf
    · rcases List.mem_append.mp hf with hf | hf
      · exact folds_valid h f hf
      · exact folds_valid h f hf
    · split at hf
      · rcases List.mem_append.mp hf with hf | hf
        · exact foldsHere_valid h f hf
        · exact foldsHere_valid h f hf
      · cases hf
  | .comparison _ left _ right, f, hf => by
    rcases List.mem_append.mp hf with hf | hf
    · exact folds_valid h f hf
    · exact folds_valid h f hf
  | .int .., f, hf | .float .., f, hf | .str .., f, hf | .ident .., f, hf | .call .., f, hf | .access .., f, hf
  | .list .., f, hf | .lambda .., f, hf | .malformed .., f, hf => by cases hf

variable (A) in
structure Exact (folds : List (Fold × (String → V))) (after : Prop) : Prop where
  iff : (∀ f ∈ folds, f.1.Faithful A f.2) ↔ ∀ f ∈ folds, f.1.Current f.2
  after : (∀ f ∈ folds, f.1.Faithful A f.2) → after

namespace Exact

variable {fs gs : List (Fold × (String → V))} {p q : Prop}

theorem nil (h : p) : Exact A [] p := ⟨by simp, fun _ => h⟩

theorem imp (h : Exact A fs p) (hpq : p → q) : Exact A fs q := ⟨h.iff, fun hf => hpq (h.after hf)⟩

theorem append (h : Exact A fs p) (h' : p → Exact A gs q) : Exact A (fs ++ gs) q where
  -- the scopes at `gs` can be trusted only if all in `fs` were put rightly
  iff := by
    rw [List.forall_mem_append, List.forall_mem_append]
    constructor
    · rintro ⟨hf, hg⟩
      exact ⟨h.iff.mp hf, (h' (h.after hf)).iff.mp hg⟩
    · rintro ⟨hf, hg⟩
      have hf := h.iff.mpr hf
      exact ⟨hf, (h' (h.after hf)).iff.mpr hg⟩
  after hfg := by
    obtain ⟨hf, hg⟩ := List.forall_mem_append.mp hfg
    exact (h' (h.after hf)).after hg

end Exact

theorem exact_expr {here : Place} {e : Expr} {s s' : State} {n : Node} {env : String → V} (hn : e.isNumeric = true)
    (h : (loadExpr here e).run s = .ok n s') (hs : s.scopes.Valid A env) :
    Exact A ((e.folds s.names s.scopes).map (·, env)) (n.eval A env = e.eval A env ∧ s'.scopes = s.scopes) := by
  have H := loadExpr_loads hn h
  constructor
  · rw [List.forall_mem_map, List.forall_mem_map]
    refine forall₂_congr fun f hf => ?_
    unfold Fold.Faithful Fold.Current
    dsimp only
    rw [Expr.folds_valid hs f hf]
  · intro hf
    rw [List.forall_mem_map] at hf
    exact ⟨H.eval A env hf, by rw [H.state]⟩

/-! ## Statements -/

theorem stateAfter_eq {α : Type} {x : Loading α} {s s' : State} {a : α} (h : x.run s = .ok a s') :
    stateAfter x s = s' := by
  unfold stateAfter
  rw [h]

mutual

theorem exact_stmt : ∀ {stmt : Stmt} {names names' : List String} {s s' : State} {n : Node} {σ : Store V},
    stmt.declared? names = some names' → (loadStmt ⟨0, false⟩ stmt).run s = .ok n s' →
      s.scopes.Valid A σ.env →
      Exact A (stmt.folds A s σ) (n.exec A σ = stmt.exec A σ ∧ s'.scopes.Valid A (stmt.exec A σ).env)
  | .decl .., names, names', s, s', n, σ, hd, h, hs => by
    obtain ⟨v, s₁, hv, rfl, rfl⟩ := loadStmt_decl h
    refine (exact_expr (Stmt.isNumeric_of_declared? hd) hv hs).imp ?_
    rintro ⟨heval, hscopes⟩
    rw [Node.exec, Stmt.exec, heval]
    refine ⟨rfl, ?_⟩
    dsimp only
    rw [hscopes]
    exact hs.declare heval
  | .letIn .., names, names', s, s', n, σ, hd, h, hs => by
    obtain ⟨_, hdecls, hbody⟩ := Option.bind_eq_some_iff.mp hd
    obtain ⟨ds, s₁, ss, s₂, hds, hss, rfl, rfl⟩ := loadStmt_letIn h
    rw [Stmt.folds]
    dsimp only
    rw [stateAfter_eq hds]
    refine (exact_block hdecls hds (hs.push nofun)).append fun ⟨hexec, hs₁⟩ =>
      (exact_block hbody hss hs₁).imp fun ⟨hexec', hs₂⟩ => ?_
    rw [Node.exec, Node.exec, Stmt.exec, hexec, hexec']
    exact ⟨rfl, hs₂.pop⟩
  | .block .., names, names', s, s', n, σ, hd, h, hs => by
    unfold loadStmt at h
    obtain ⟨ns, s₁, hns, rfl, rfl⟩ := inBlock_eq_ok h
    rw [Stmt.folds]
    have hd : Stmt.declaredAll? names _ = some names' := hd
    refine (exact_block hd hns (hs.push nofun)).imp fun ⟨hexec, hs₁⟩ => ?_
    rw [Node.exec, Stmt.exec, hexec]
    exact ⟨rfl, hs₁.pop⟩
  | .print _ [_], names, names', s, s', n, σ, hd, h, hs => by
    obtain ⟨v, s₁, hv, rfl, rfl⟩ := loadStmt_print h
    refine (exact_expr (Stmt.isNumeric_of_declared? hd) hv hs).imp ?_
    rintro ⟨heval, hscopes⟩
    rw [Node.exec, Stmt.exec, heval]
    exact ⟨rfl, hscopes ▸ hs⟩

theorem exact_block : ∀ {statements : List Stmt} {names names' : List String} {s s' : State} {ns : List Node}
    {σ : Store V}, Stmt.declaredAll? names statements = some names' →
      (loadBlock ⟨0, false⟩ statements).run s = .ok ns s' → s.scopes.Valid A σ.env →
        Exact A (Stmt.foldsAll A (loadBlock ⟨0, false⟩) statements s σ)
          (Node.execAll A ns σ = Stmt.execAll A statements σ ∧ s'.scopes.Valid A (Stmt.execAll A statements σ).env)
  | [], names, names', s, s', ns, σ, _, h, hs => by
    obtain ⟨rfl, rfl⟩ := pure_eq_ok.mp h
    exact .nil ⟨rfl, hs⟩
  | stmt :: rest, names, names', s, s', ns, σ, hd, h, hs => by
    obtain ⟨_, hstmt, hrest⟩ := Option.bind_eq_some_iff.mp hd
    obtain ⟨n, s₁, ns, hn, hns, rfl⟩ := loadBlock_cons h
    rw [Stmt.foldsAll, stateAfter_eq (loadBlock_singleton h hn)]
    refine (exact_stmt hstmt hn hs).append fun ⟨hexec, hs₁⟩ =>
      (exact_block hrest hns hs₁).imp fun ⟨hexec', hs'⟩ => ?_
    rw [Node.execAll, Stmt.execAll, hexec, hexec']
    exact ⟨rfl, hs'⟩

end

theorem exact_sequence : ∀ {statements : List Stmt} {names names' : List String} {s s' : State} {ns : List Node}
    {σ : Store V}, Stmt.declaredAll? names statements = some names' →
      (loadSequence ⟨0, false⟩ statements).run s = .ok ns s' → s.scopes.Valid A σ.env →
        Exact A (Stmt.foldsAll A (loadSequence ⟨0, false⟩) statements s σ)
          (Node.execAll A ns σ = Stmt.execAll A statements σ)
  | [], names, names', s, s', ns, σ, _, h, hs => by
    obtain ⟨rfl, rfl⟩ := pure_eq_ok.mp h
    exact .nil rfl
  | stmt :: rest, names, names', s, s', ns, σ, hd, h, hs => by
    obtain ⟨_, hstmt, hrest⟩ := Option.bind_eq_some_iff.mp hd
    obtain ⟨n, s₁, ns, hn, hns, rfl⟩ := loadSequence_cons h
    rw [Stmt.foldsAll, stateAfter_eq (loadSequence_singleton h hn)]
    refine (exact_stmt hstmt hn hs).append fun ⟨hexec, hs₁⟩ =>
      (exact_sequence hrest hns hs₁).imp fun hexec' => ?_
    rw [Node.execAll, Stmt.execAll, hexec, hexec']

end

/-! ## Sources -/

/-- A straight program compiles. Its code, run by the machine, comes to its `HLT` and prints what the program
prints, and every number put for a name is the value of the name there, exactly if every name for which a
number is put has the value of its origin there. -/
theorem Program.folds_faithful_iff_current {V : Type} (A : Arithmetic V) {source : List Char} {tree : Tree}
    (hparse : Tree.parse source = .ok tree) (hstraight : Program.isStraight (.ofTree source tree) = true)
    (options : Options) :
    ∃ assembly code, (compile options source).result = .ok assembly ∧
      assembly.functions = [⟨0, mainName, 0, 0, code⟩] ∧
      ((Machine.Halts A code (Program.outputs A (.ofTree source tree)) ∧
          ∀ f ∈ Program.folds A (.ofTree source tree), f.1.Faithful A f.2) ↔
        ∀ f ∈ Program.folds A (.ofTree source tree), f.1.Current f.2) := by
  obtain ⟨names, hnames⟩ := Option.isSome_iff_exists.mp hstraight
  obtain ⟨assembly, hcompile⟩ := Program.compiles_of_isStraight hparse hstraight options
  obtain ⟨ns, s, code, hrun, hcode, hhalts⟩ :=
    Program.halts_of_compile hparse (Stmt.allNumeric_of_declaredAll? hnames) hcompile
  have hexact := exact_sequence hnames hrun (show ScopeStack.Valid A (Store.initial A).env _ from nofun)
  refine ⟨assembly, code, hcompile, hcode, fun h => hexact.iff.mp h.2, fun h => ?_⟩
  have hfaithful := hexact.iff.mpr h
  refine ⟨?_, hfaithful⟩
  rw [Program.outputs, ← hexact.after hfaithful]
  exact hhalts A

def Program.freshAliasSource : List Char :=
  "let { let a = 1 let b = a } in { print(b + 2) { let a = 7 print(a * b) } } print(a)".toList

theorem Program.folds_faithful_of_freshAlias : ∃ tree, Tree.parse freshAliasSource = .ok tree ∧
    isStraight (ofTree freshAliasSource tree) = true ∧
    (folds .whole (ofTree freshAliasSource tree)).map (·.1.name) = ["b"] ∧
    (∀ f ∈ folds .whole (ofTree freshAliasSource tree), f.1.Current f.2) ∧
    ∃ assembly code, (compile {} freshAliasSource).result = .ok assembly ∧
      assembly.functions = [⟨0, mainName, 0, 0, code⟩] ∧ Machine.Halts .whole code [some 3, some 7, some 7] ∧
      ∀ f ∈ folds .whole (ofTree freshAliasSource tree), f.1.Faithful .whole f.2 := by
  obtain ⟨tree, -, hparse, hp, -, -⟩ := exists_of_ofSource? {} freshAliasSource
    (p := fun p => isStraight p && ((folds .whole p).map (·.1.name) = ["b"]) &&
      ((folds .whole p).all fun f => f.2 f.1.name = f.2 f.1.origin) &&
      outputs .whole p = [some 3, some 7, some 7]) (q := fun _ => true) (by decide +kernel) (by decide +kernel)
  simp only [Bool.and_eq_true, decide_eq_true_eq, List.all_eq_true] at hp
  obtain ⟨⟨⟨hstraight, hnames⟩, hcurrent⟩, houtputs⟩ := hp
  obtain ⟨assembly, code, hcompile, hcode, hiff⟩ := folds_faithful_iff_current .whole hparse hstraight {}
  obtain ⟨hhalts, hfaithful⟩ := hiff.mpr hcurrent
  exact ⟨tree, hparse, hstraight, hnames, hcurrent, assembly, code, hcompile, hcode, houtputs ▸ hhalts, hfaithful⟩

/-- The name `b` still stands for `a` when `a` has been declared anew in the same let-in. -/
def Program.staleAliasSource : List Char := "let { let a = 1 let b = a let a = 2 } in { print(b + 0) }".toList

/-- The program prints 1, its code 2. -/
theorem Program.not_halts_with_outputs_of_staleAlias : ∃ tree assembly code,
    Tree.parse staleAliasSource = .ok tree ∧ isStraight (ofTree staleAliasSource tree) = true ∧
    (compile {} staleAliasSource).result = .ok assembly ∧
    assembly.functions = [⟨0, mainName, 0, 0, code⟩] ∧ Machine.Halts .whole code [some 2] ∧
    outputs .whole (ofTree staleAliasSource tree) = [some 1] ∧
    ¬ Machine.Halts .whole code (outputs .whole (ofTree staleAliasSource tree)) := by
  obtain ⟨tree, assembly, hparse, hp, hcompile, hq⟩ := exists_of_ofSource? {} staleAliasSource
    (p := fun p => isStraight p && outputs .whole p = [some 1])
    (q := fun a => a.functions.all fun f => Machine.haltsAfter .whole f.code 8 [some 2])
    (by decide +kernel) (by decide +kernel)
  simp only [Bool.and_eq_true, decide_eq_true_eq] at hp
  obtain ⟨hstraight, houtputs⟩ := hp
  obtain ⟨names, hnames⟩ := Option.isSome_iff_exists.mp hstraight
  obtain ⟨-, -, code, -, hcode, -⟩ := halts_of_compile hparse (Stmt.allNumeric_of_declaredAll? hnames) hcompile
  have hhalts : Machine.Halts .whole code [some 2] := Machine.halts_of_haltsAfter (by simpa [hcode] using hq)
  refine ⟨tree, assembly, code, hparse, hstraight, hcompile, hcode, hhalts, houtputs, fun h => ?_⟩
  exact absurd (houtputs.symm.trans (h.unique hhalts)) (by decide)

end Bies
