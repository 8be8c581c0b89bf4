import Bies.Proofs.MainProgram

/-!
# Straight programs

Let-ins, declarations, blocks and prints of sums, differences and products, in which every name is
declared before it is used. Whatever the options, such a program compiles.
-/

namespace Bies

/-! ## Straight statements -/

def Expr.isSimple (names : List String) : Expr → Bool
  | .int .. | .float .. => true
  | .ident _ name => names.contains name && name ≠ mainName
  | .arithmetic _ left op right => ["+", "-", "*"].contains op && left.isSimple names && right.isSimple names
  | _ => false

mutual

/-- The names that are declared behind a statement, if it is straight where `names` are. -/
def Stmt.declared? (names : List String) : Stmt → Option (List String)
  | .decl _ _ name value => if value.isSimple names then some (name :: names) else none
  | .letIn _ decls _ body => (Stmt.declaredAll? names decls).bind fun names => Stmt.declaredAll? names body
  | .block _ statements => Stmt.declaredAll? names statements
  | .print _ [value] => if value.isSimple names then some names else none
  | _ => none

def Stmt.declaredAll? (names : List String) : List Stmt → Option (List String)
  | [] => some names
  | s :: rest => (s.declared? names).bind fun names => Stmt.declaredAll? names rest

end

def Program.isStraight (program : Program) : Bool := (Stmt.declaredAll? [] program).isSome

namespace Node

def isSimple (names : List String) : Node → Bool
  | .int .. | .float .. => true
  | .ident _ name => names.contains name
  | .binary _ left op right => ["+", "-", "*"].contains op && left.isSimple names && right.isSimple names
  | _ => false

mutual

def declared? (names : List String) : Node → Option (List String)
  | .decl _ _ name value => if value.isSimple names then some (name :: names) else none
  | .letIn _ decls body => (declaredAll? names decls).bind fun names => body.declared? names
  | .block _ statements => declaredAll? names statements
  | .print _ [value] => if value.isSimple names then some names else none
  | _ => none

def declaredAll? (names : List String) : List Node → Option (List String)
  | [] => some names
  | n :: rest => (n.declared? names).bind fun names => declaredAll? names rest

end

end Node

theorem Expr.isNumeric_of_isSimple {names : List String} : ∀ {e : Expr}, e.isSimple names = true → e.isNumeric = true
  | .int .., _ | .float .., _ => rfl
  | .ident _ name, h => (Bool.and_eq_true_iff.mp h).2
  | .arithmetic _ left _ right, h => by
    simp only [isSimple, Bool.and_eq_true] at h
    simp [isNumeric, isNumeric_of_isSimple h.1.2, isNumeric_of_isSimple h.2]

mutual

theorem Stmt.isNumeric_of_declared? : ∀ {stmt : Stmt} {names names' : List String},
    stmt.declared? names = some names' → stmt.isNumeric = true
  | .decl .., names, names', h | .print _ [_], names, names', h => by
    obtain ⟨hvalue, -⟩ := Option.ite_none_right_eq_some.mp h
    exact Expr.isNumeric_of_isSimple hvalue
  | .letIn .., names, names', h => by
    obtain ⟨_, hdecls, hbody⟩ := Option.bind_eq_some_iff.mp h
    simp [isNumeric, Stmt.allNumeric_of_declaredAll? hdecls, Stmt.allNumeric_of_declaredAll? hbody]
  | .block .., names, names', h => by
    have h : Stmt.declaredAll? names _ = some names' := h
    exact Stmt.allNumeric_of_declaredAll? h

theorem Stmt.allNumeric_of_declaredAll? : ∀ {statements : List Stmt} {names names' : List String},
    Stmt.declaredAll? names statements = some names' → Stmt.allNumeric statements = true
  | [], _, _, _ => rfl
  | _ :: _, names, names', h => by
    obtain ⟨_, hstmt, hrest⟩ := Option.bind_eq_some_iff.mp h
    simp [allNumeric, isNumeric_of_declared? hstmt, allNumeric_of_declaredAll? hrest]

end

/-! ## Loading -/

namespace Loading

def Succeeds {α : Type} (f : FunctionId) (x : Loading α) (p : α → Prop) : Prop :=
  ∀ s, f < s.table.size → ∃ a s', x.run s = .ok a s' ∧ s.table.size ≤ s'.table.size ∧ p a

section
variable {α β : Type} {f : FunctionId} {x : Loading α} {k : α → Loading β} {p : α → Prop} {q : β → Prop}

theorem Succeeds.bind (hx : Succeeds f x p) (hk : ∀ a, p a → Succeeds f (k a) q) : Succeeds f (x >>= k) q := by
  intro s hf
  obtain ⟨a, s₁, ha, hsize, hp⟩ := hx s hf
  obtain ⟨b, s₂, hb, hsize', hq⟩ := hk a hp s₁ (Nat.lt_of_lt_of_le hf hsize)
  exact ⟨b, s₂, bind_eq_ok.mpr ⟨a, s₁, ha, hb⟩, Nat.le_trans hsize hsize', hq⟩

theorem Succeeds.ret {a : α} (h : p a) : Succeeds f (pure a) p := fun s _ => ⟨a, s, rfl, Nat.le_refl _, h⟩

theorem Succeeds.aside {change : State → State} (h : ∀ s, (change s).table = s.table) :
    Succeeds f (modify change) fun _ => True :=
  fun s _ => ⟨(), change s, rfl, Nat.le_of_eq (by rw [h]), trivial⟩

end

theorem succeeds_append {f : FunctionId} {n : Node} : Succeeds f (append f n) fun _ => True :=
  fun s hf => ⟨(), _, append_eq_ok.mpr ⟨hf, rfl⟩, Nat.le_of_eq (size_append s.table).symm, trivial⟩

theorem succeeds_build {f : FunctionId} (span : Span) {make : Tag → Node} {p : Node → Prop}
    (h : ∀ tag, p (make tag)) : Succeeds f (build span make) p :=
  fun s _ => ⟨_, _, rfl, Nat.le_refl _, h ⟨s.nextId, span⟩⟩

theorem succeeds_inBlock {f : FunctionId} (span : Span) {load : Loading (List Node)} {p : Node → Prop}
    {q : List Node → Prop} (hload : Succeeds f load q) (h : ∀ ns, q ns → ∀ tag, p (.block tag ns)) :
    Succeeds f (inBlock span load) p :=
  .bind (.aside fun _ => rfl) fun _ _ => .bind hload fun ns hns =>
    .bind (.aside fun _ => rfl) fun _ _ => succeeds_build span (h ns hns)

theorem loadExpr_succeeds {f : FunctionId} {names : List String} : ∀ {e : Expr} {here : Place},
    e.isSimple names = true → Succeeds f (loadExpr here e) fun n => n.isSimple names = true
  | .int .., here, _ | .float .., here, _ => by
    unfold loadExpr
    exact succeeds_build _ fun _ => rfl
  | .ident _ name, here, h => by
    unfold loadExpr
    exact succeeds_build _ fun _ => (Bool.and_eq_true_iff.mp h).1
  | .arithmetic span left op right, here, h => by
    simp only [Expr.isSimple, Bool.and_eq_true] at h
    unfold loadExpr
    refine .bind (loadExpr_succeeds h.1.2) fun l hl => .bind (loadExpr_succeeds h.2) fun r hr => ?_
    unfold buildArithmetic
    refine .bind (p := fun _ => True) (fun s _ => ⟨s, s, rfl, Nat.le_refl _, trivial⟩) fun s _ => ?_
    dsimp only
    split
    · exact succeeds_build span fun _ => rfl
    · exact succeeds_build span fun _ => rfl
    · exact succeeds_build span fun _ => by simp only [Node.isSimple, h.1.1, hl, hr, Bool.and_self]

mutual

theorem loadStmt_succeeds {here : Place} :
    ∀ {stmt : Stmt} {names names' : List String}, stmt.declared? names = some names' →
    Succeeds here.function (loadStmt here stmt) fun n => n.declared? names = some names'
  | .decl span constant name value, names, names', h => by
    obtain ⟨hvalue, hnames⟩ := Option.ite_none_right_eq_some.mp h
    unfold loadStmt
    exact .bind (loadExpr_succeeds hvalue) fun v hv =>
      .bind (succeeds_build (p := fun n => n.declared? names = some names') span fun _ => by
        simp [Node.declared?, hv, hnames]) fun n hn => .bind (.aside fun _ => rfl) fun _ _ => .ret hn
  | .letIn span decls bodySpan body, names, names', h => by
    obtain ⟨names₁, hdecls, hbody⟩ := Option.bind_eq_some_iff.mp h
    unfold loadStmt
    exact .bind (.aside fun _ => rfl) fun _ _ => .bind (loadBlock_succeeds hdecls) fun ds hds =>
      .bind (loadBlock_succeeds hbody) fun ss hss => .bind (.aside fun _ => rfl) fun _ _ =>
        .bind (succeeds_build (p := fun n => n.declared? names₁ = some names') bodySpan fun _ => hss) fun b hb =>
          succeeds_build span fun _ => by simp [Node.declared?, hds, hb]
  | .block span statements, names, names', h => by
    unfold loadStmt
    have h : Stmt.declaredAll? names statements = some names' := h
    exact succeeds_inBlock span (loadBlock_succeeds h) fun ns hns tag => hns
  | .print span [value], names, names', h => by
    obtain ⟨hvalue, hnames⟩ := Option.ite_none_right_eq_some.mp h
    unfold loadStmt loadExprs loadExprs
    refine .bind (.bind (loadExpr_succeeds hvalue) fun v hv => .bind (.ret rfl) fun vs hvs => .ret ?_)
      fun args (hargs : ∃ v : Node, args = [v] ∧ v.isSimple names = true) => succeeds_build span fun _ => ?_
    · exact ⟨v, by rw [hvs], hv⟩
    · obtain ⟨v, rfl, hv⟩ := hargs
      simp [Node.declared?, hv, hnames]

theorem loadBlock_succeeds {here : Place} : ∀ {statements : List Stmt} {names names' : List String},
    Stmt.declaredAll? names statements = some names' →
      Succeeds here.function (loadBlock here statements) fun ns => Node.declaredAll? names ns = some names'
  | [], names, names', h => by
    unfold loadBlock
    exact .ret h
  | stmt :: rest, names, names', h => by
    obtain ⟨names₁, hstmt, hrest⟩ := Option.bind_eq_some_iff.mp h
    unfold loadBlock
    refine .bind (loadStmt_succeeds hstmt) fun n hn => .bind (p := fun _ => True) ?_ fun _ _ =>
      .bind (loadBlock_succeeds hrest) fun ns hns => .ret (by simp [Node.declaredAll?, hn, hns])
    unfold appendDecl
    split
    · exact succeeds_append
    · exact .ret trivial

end

theorem loadSequence_succeeds {here : Place} : ∀ {statements : List Stmt} {names names' : List String},
    Stmt.declaredAll? names statements = some names' →
      Succeeds here.function (loadSequence here statements) fun ns => Node.declaredAll? names ns = some names'
  | [], names, names', h => by
    unfold loadSequence
    exact .ret h
  | stmt :: rest, names, names', h => by
    obtain ⟨names₁, hstmt, hrest⟩ := Option.bind_eq_some_iff.mp h
    unfold loadSequence
    exact .bind (loadStmt_succeeds hstmt) fun n hn => .bind succeeds_append fun _ _ =>
      .bind (loadSequence_succeeds hrest) fun ns hns => .ret (by simp [Node.declaredAll?, hn, hns])

end Loading

/-! ## Lowering -/

def Frame.Binds (F : Frame) (names : List String) : Prop := ∀ name ∈ names, F.slot? name ≠ none

theorem Frame.Binds.bind {F : Frame} {names : List String} (h : F.Binds names) (name : String) (value : Option Node) :
    (F.bind name value).2.Binds (name :: names) := by
  intro other hother
  rcases List.mem_cons.mp hother with rfl | hother
  · rw [F.slot?_bind]
    nofun
  · exact fun hnone => h other hother ((F.bind_extends name value).slot?_none hnone)

namespace Lowering

def Succeeds {α : Type} (F : Frame) (x : Lowering α) (Q : Frame → Prop) : Prop :=
  ∀ s, s.frames = ⟨[F]⟩ → ∃ a s' F', x.run s = .ok a s' ∧ s'.frames = ⟨[F']⟩ ∧ Q F'

section
variable {α β : Type} {F : Frame} {x : Lowering α} {k : α → Lowering β} {Q R : Frame → Prop}

theorem Succeeds.bind (hx : Succeeds F x Q) (hk : ∀ F', Q F' → ∀ a, Succeeds F' (k a) R) :
    Succeeds F (x >>= k) R := by
  intro s hs
  obtain ⟨a, s₁, F₁, ha, hs₁, hQ⟩ := hx s hs
  obtain ⟨b, s₂, F₂, hb, hs₂, hR⟩ := hk F₁ hQ a s₁ hs₁
  exact ⟨b, s₂, F₂, bind_eq_ok.mpr ⟨a, s₁, ha, hb⟩, hs₂, hR⟩

theorem Succeeds.ret {a : α} (h : Q F) : Succeeds F (pure a) Q := fun s hs => ⟨a, s, F, rfl, hs, h⟩

end

section
variable {c : Context} (hc : InMain c) {names : List String}
include hc

theorem loadName_succeeds {F : Frame} {name : String} (h : F.slot? name ≠ none) (span : Span) :
    Succeeds F (loadName c name span) (· = F) := by
  obtain ⟨slot, hslot⟩ := Option.ne_none_iff_exists'.mp h
  intro s hs
  refine ⟨.bld 0 slot, s, F, ?_, hs, rfl⟩
  unfold loadName
  refine bind_eq_ok.mpr ⟨s, s, rfl, ?_⟩
  rw [hs, hc.chain, Frames.resolve?_main, hslot]
  rfl

theorem value_succeeds : ∀ {n : Node} {F : Frame}, n.isSimple names = true → F.Binds names →
    Succeeds F (Plain.value c n) (· = F)
  | .int .., F, _, _ | .float .., F, _, _ => by
    unfold Plain.value
    exact .ret rfl
  | .ident tag name, F, hn, hF => by
    unfold Plain.value
    refine .bind (loadName_succeeds hc (hF name (by simpa [Node.isSimple] using hn)) tag.span) fun F' hF' i => ?_
    exact .ret hF'
  | .binary tag left op right, F, hn, hF => by
    simp only [Node.isSimple, Bool.and_eq_true] at hn
    obtain ⟨i, hi⟩ : ∃ i, Instruction.arithmetic? op = some i := by
      have hop : op = "+" ∨ op = "-" ∨ op = "*" := by simpa using hn.1.1
      rcases hop with rfl | rfl | rfl <;> exact ⟨_, rfl⟩
    unfold Plain.value arithmeticInstruction
    rw [hi]
    refine .bind (Q := (· = F)) (fun s hs => ⟨_, s, F, rfl, hs, rfl⟩) ?_
    rintro _ rfl _
    refine .bind (value_succeeds hn.2 hF) ?_
    rintro _ rfl _
    refine .bind (value_succeeds hn.1.2 hF) ?_
    rintro _ rfl _
    exact .ret rfl

end

section
variable {c : Context}

mutual

theorem stmt_succeeds (hc : InMain c) : ∀ {n : Node} {names names' : List String} {F : Frame},
    n.declared? names = some names' → F.Binds names → Succeeds F (Plain.stmt c n) (·.Binds names')
  | .decl _ _ name value, names, names', F, h, hF => by
    obtain ⟨hvalue, rfl⟩ : value.isSimple names = true ∧ name :: names = names' := by
      simpa [Node.declared?] using h
    unfold Plain.stmt
    refine .bind (value_succeeds hc hvalue hF) ?_
    rintro _ rfl _
    refine .bind (Q := (·.Binds (name :: names))) (fun s hs => ?_) fun F' hF' _ => .ret hF'
    refine ⟨_, _, _, rfl, ?_, hF.bind name (some value)⟩
    rw [hc.function, hs]
    rfl
  | .letIn _ decls body, names, names', F, h, hF => by
    obtain ⟨names₁, hdecls, hbody⟩ := Option.bind_eq_some_iff.mp h
    unfold Plain.stmt
    exact .bind (stmts_succeed hc hdecls hF) fun F₁ hF₁ _ =>
      .bind (stmt_succeeds hc hbody hF₁) fun F₂ hF₂ _ => .ret hF₂
  | .block _ statements, names, names', F, h, hF => by
    unfold Plain.stmt
    have h : Node.declaredAll? names statements = some names' := h
    exact stmts_succeed hc h hF
  | .print _ [value], names, names', F, h, hF => by
    obtain ⟨hvalue, rfl⟩ : value.isSimple names = true ∧ names = names' := by simpa [Node.declared?] using h
    unfold Plain.stmt
    rw [values_singleton]
    refine .bind (value_succeeds hc hvalue hF) ?_
    rintro _ rfl _
    exact .ret hF

theorem stmts_succeed (hc : InMain c) : ∀ {ns : List Node} {names names' : List String} {F : Frame},
    Node.declaredAll? names ns = some names' → F.Binds names → Succeeds F (Plain.stmts c ns) (·.Binds names')
  | [], names, names', F, h, hF => by
    obtain rfl := Option.some.inj h
    unfold Plain.stmts
    exact .ret hF
  | n :: rest, names, names', F, h, hF => by
    obtain ⟨names₁, hn, hrest⟩ := Option.bind_eq_some_iff.mp h
    unfold Plain.stmts
    exact .bind (stmt_succeeds hc hn hF) fun F₁ hF₁ _ => .bind (stmts_succeed hc hrest hF₁)
      fun F₂ hF₂ _ => .ret hF₂

end

end

end Lowering

/-! ## Compiling -/

theorem Assembly.plain_ofMain {entries : List Node} {options : Options} {code : Code} {s : Lowering.State}
    (h : (Lowering.Plain.stmts ⟨.ofMain entries, options, 0, (FunctionTable.ofMain entries).chain 0⟩
      (Lowering.Plain.roots entries)).run { frames := ⟨[[]]⟩, events :=
        [.loweringFunction 0 mainName] } = .ok code s) :
    (plain (.ofMain entries) options).result = .ok ⟨[⟨0, mainName, 0, 0, code ++ [.hlt]⟩], s.skipped⟩ := by
  have hrun : (Lowering.Plain.lower (.ofMain entries) options).run { frames := .ofTable (.ofMain entries) } =
      .ok ⟨[⟨0, mainName, 0, 0, code ++ [.hlt]⟩], s.skipped⟩ s := by
    simp only [Lowering.Plain.lower, Lowering.Plain.functions, Lowering.Plain.function, FunctionTable.ofMain,
      Lowering.note, bind_eq_ok, modify_eq_ok, get_eq_ok, pure_eq_ok]
    refine ⟨_, _, ⟨_, _, ?_, _, _, ⟨rfl, rfl⟩, rfl, rfl⟩, _, _, ⟨rfl, rfl⟩, rfl, rfl⟩
    exact ⟨(), _, rfl, code, s, h, rfl, rfl⟩
  rw [plain, Outcome.ofRun, hrun]

theorem Assembly.plain_succeeds {entries : List Node} {names : List String} (options : Options)
    (h : Node.declaredAll? [] (Lowering.Plain.roots entries) = some names) :
    ∃ assembly, (plain (.ofMain entries) options).result = .ok assembly := by
  obtain ⟨code, s, F, hcode, -, -⟩ := Lowering.stmts_succeed (Lowering.inMain_ofMain entries options) h
    (F := []) nofun { frames := ⟨[[]]⟩, events := [.loweringFunction 0 mainName] } rfl
  exact ⟨_, plain_ofMain hcode⟩

theorem Program.compiles_of_isStraight {source : List Char} {tree : Tree} (hparse : Tree.parse source = .ok tree)
    (h : isStraight (ofTree source tree) = true) (options : Options) :
    ∃ assembly, (compile options source).result = .ok assembly := by
  obtain ⟨names, hnames⟩ := Option.isSome_iff_exists.mp h
  have hnumeric := Stmt.allNumeric_of_declaredAll? hnames
  let here : Loading.Place := ⟨0, false⟩
  have hsucceeds : Loading.Succeeds here.function (Loading.loadSequence here (ofTree source tree)) _ :=
    Loading.loadSequence_succeeds hnames
  obtain ⟨ns, s, hrun, -, hns⟩ := hsucceeds {} Nat.zero_lt_one
  have hload : (FunctionTable.ofProgram (ofTree source tree)).result = .ok s.table := by
    have : (Loading.load (ofTree source tree)).run {} = .ok s.table _ :=
      bind_eq_ok.mpr ⟨ns, s, hrun, rfl⟩
    rw [FunctionTable.ofProgram, Outcome.ofRun, this]
  have hseparated := FunctionTable.separated_of_ofProgram (Stmt.plainNames_of_allNumeric hnumeric) hload
  -- the same run, so the roots of the table are the nodes that were found to be straight
  obtain ⟨ns', s', entries, hrun', htable, hroots, -⟩ := FunctionTable.ofProgram_numeric hnumeric hload
  obtain ⟨rfl, rfl⟩ := EStateM.Result.ok.inj (hrun.symm.trans hrun')
  subst hroots
  obtain ⟨assembly, hassembly⟩ := Assembly.plain_succeeds options hns
  refine ⟨assembly, ?_⟩
  rw [← htable, ← Assembly.ofTable_eq_plain options hseparated] at hassembly
  simp only [compile, Outcome.andThen, Outcome.silent, hparse, Except.mapError, compileTree, hload, hassembly]

end Bies
