import Bies.Proofs.Deferral
import Bies.Proofs.Records
import Bies.Proofs.Texts

/-!
# Printed sums

Sums of literals, wherever they are printed. A sum joins texts if there is a text in one of its operands that lowering
finds, and lowering goes down through `maxTextual` operands and no further. So a sum of texts is an addition if all its
texts stand too deep.
-/

namespace Bies

open Loading

/-! ## Sums of literals -/

namespace Expr

/-- The sums that are left to the machine, in the order of their code. -/
def sums : Expr → List (Expr × Expr)
  | e@(.arithmetic _ left _ right) => if e.number?.isSome then [] else right.sums ++ left.sums ++ [(left, right)]
  | _ => []

/-- The code of a sum of literals. A sum joins texts if `isText` takes one of its operands for a text. -/
def sumCode (isText : Expr → Bool) : Expr → Code
  | .int _ n => [.ldv (.int n)]
  | .float _ x => [.ldv (.float x)]
  | .str _ text => [.ldv (.str text)]
  | e@(.arithmetic _ left _ right) =>
    match e.number? with
    | some (.int n) => [.ldv (.int n)]
    | some (.float x) => [.ldv (.float x)]
    | none => right.sumCode isText ++ left.sumCode isText ++ [if isText left || isText right then .cat else .add]
  | _ => []

def foundCode : Expr → Code := sumCode (Variables.start.finds Lowering.maxTextual)

theorem sums_join (joins : Bool) : Program.sums [if joins then .cat else .add] = [joins] := by
  cases joins <;> rfl

theorem sums_sumCode (isText : Expr → Bool) : ∀ e : Expr,
    Program.sums (e.sumCode isText) = e.sums.map fun p => isText p.1 || isText p.2
  | .arithmetic span left op right => by
    rw [sumCode, sums]
    cases (Expr.arithmetic span left op right).number? with
    | some k => cases k <;> rfl
    | none =>
      rw [Option.isSome_none, if_neg Bool.false_ne_true, List.map_append, List.map_append, ← sums_sumCode isText left,
        ← sums_sumCode isText right, List.map_singleton, ← sums_join]
      simp only [Program.sums, List.filterMap_append]
  | .int .. | .float .. | .str .. | .ident .. | .comparison .. | .call .. | .access .. | .list .. | .lambda ..
  | .malformed .. => rfl

theorem known?_of_isSum {limit : Nat} {scopes : ScopeStack} : ∀ {e : Expr}, e.isSum [] = true →
    e.known? limit scopes = e.number?
  | .int .., _ | .float .., _ | .str .., _ => rfl
  | .arithmetic _ left op right, h => by
    simp only [isSum, Bool.and_eq_true] at h
    rw [known?, number?, known?_of_isSum h.1.2, known?_of_isSum h.2]

end Expr

theorem Variables.text_of_finds : ∀ {limit : Nat} {e : Expr}, start.finds limit e = true → start.text e = true
  | limit + 1, .str .., _ => rfl
  | limit + 1, .arithmetic _ left _ right, h => by
    simp only [finds, Bool.or_eq_true] at h
    rw [text, Bool.or_eq_true]
    exact h.imp text_of_finds text_of_finds

namespace Lowering

variable {c : Context} {k : Nat} {scopes : ScopeStack}

theorem isTextual_of_stands (frames : Frames) : ∀ {limit : Nat} {e : Expr} {n : Node}, Stands k scopes e n →
    e.isSum [] = true → isTextual c frames limit n = Variables.start.finds limit e
  | 0, _, _, _, _ => rfl
  | limit + 1, _, _, h, he => by
    cases h with
    | int | float | str => rfl
    | ident | comparison => cases he
    | known tag hk => rw [isTextual_ofNumber, finds_of_number? (Expr.known?_of_isSum he ▸ hk)]
    | arithmetic tag hk hl hr =>
      simp only [Expr.isSum, Bool.and_eq_true, decide_eq_true_eq] at he
      simp only [isTextual, Variables.finds, he.1.1, decide_true, Bool.true_and, isTextual_of_stands frames hl he.1.2,
        isTextual_of_stands frames hr he.2]

theorem value_of_stands (s : State) {e : Expr} {n : Node} (h : Stands k scopes e n) :
    e.isSum [] = true → (Plain.value c n).run s = .ok e.foundCode s := by
  unfold Expr.foundCode
  induction h with
  | int | float | str =>
    intro _
    unfold Plain.value
    rfl
  | ident | comparison => exact nofun
  | @known left right span op number tag hk =>
    intro he
    rw [Expr.known?_of_isSum he] at hk
    rw [Expr.sumCode, hk]
    unfold Plain.value
    cases number <;> rfl
  | @arithmetic left right l r span op tag hk hl hr ihl ihr =>
    intro he
    rw [Expr.known?_of_isSum he] at hk
    simp only [Expr.isSum, Bool.and_eq_true, decide_eq_true_eq] at he
    obtain ⟨⟨rfl, hleft⟩, hright⟩ := he
    rw [Expr.sumCode, hk]
    unfold Plain.value
    refine bind_eq_ok.mpr ⟨_, s, ?_,
      bind_eq_ok.mpr ⟨_, s, ihr hright, bind_eq_ok.mpr ⟨_, s, ihl hleft, rfl⟩⟩⟩
    refine bind_eq_ok.mpr ⟨s, s, rfl, ?_⟩
    dsimp only
    rw [isTextual_of_stands s.frames hl hleft, isTextual_of_stands s.frames hr hright]
    rfl

theorem values_of_stands (s : State) {es : List Expr} {ns : List Node} (h : List.Forall₂ (Stands k scopes) es ns) :
    es.all (·.isSum []) = true → (Plain.values c ns).run s = .ok (es.flatMap Expr.foundCode) s := by
  induction h with
  | nil =>
    intro _
    unfold Plain.values
    rfl
  | cons hn _ ih =>
    intro hsum
    rw [List.all_cons, Bool.and_eq_true] at hsum
    unfold Plain.values
    exact bind_eq_ok.mpr ⟨_, s, value_of_stands s hn hsum.1, bind_eq_ok.mpr ⟨_, s, ih hsum.2, rfl⟩⟩

end Lowering

/-! ## What is printed -/

mutual

/-- What the statement prints, list by list, outside the functions in it. -/
def Stmt.prints : Stmt → List (List Expr)
  | .print _ args => [args]
  | .letIn _ decls _ body => Stmt.printsAll decls ++ Stmt.printsAll body
  | .ifThen _ _ _ body => Stmt.printsAll body
  | .ifElse _ _ _ body _ other => Stmt.printsAll body ++ Stmt.printsAll other
  | .ifElseIf _ _ _ body link => Stmt.printsAll body ++ link.prints
  | .block _ statements => Stmt.printsAll statements
  | _ => []

def Stmt.printsAll : List Stmt → List (List Expr)
  | [] => []
  | stmt :: rest => stmt.prints ++ Stmt.printsAll rest

end

mutual

def Node.prints : Node → List (List Node)
  | .print _ args => [args]
  | .letIn _ decls body => Node.printsAll decls ++ body.prints
  | .ifThen _ _ body => body.prints
  | .ifElse _ _ body last | .ifElseIf _ _ body last => body.prints ++ last.prints
  | .block _ statements => Node.printsAll statements
  | _ => []

def Node.printsAll : List Node → List (List Node)
  | [] => []
  | n :: rest => n.prints ++ Node.printsAll rest

end

namespace Loading

def Loads (here : Place) (es : List Expr) (ns : List Node) : Prop := ∃ s s', (loadExprs here es).run s = .ok ns s'

variable {here : Place}

theorem Loads.stands {es : List Expr} {ns : List Node} (h : Loads here es ns) (hsums : es.all (·.isSum []) = true) :
    ∃ k scopes, List.Forall₂ (Stands k scopes) es ns := by
  obtain ⟨s, s', hload⟩ := h
  have hflat : es.all (·.isFlat) = true :=
    List.all_eq_true.mpr fun e he => Expr.isFlat_of_isSum (List.all_eq_true.mp hsums e he)
  obtain ⟨ns', s'', hload', -, -, hstands⟩ := exists_loadsExprs here s hflat
  obtain ⟨rfl, rfl⟩ := EStateM.Result.ok.inj (hload.symm.trans hload')
  exact ⟨_, _, hstands⟩

theorem gives_build {span : Span} {make : Tag → Node} {P : Node → Prop} (h : ∀ tag, P (make tag)) :
    Gives (build span make) P := .bind_any fun _ => .ret (h _)

theorem loadExpr_prints (e : Expr) : Gives (loadExpr here e) fun n => n.prints = [] := by
  unfold loadExpr
  split
  · exact gives_build fun _ => rfl
  · exact gives_build fun _ => rfl
  · exact gives_build fun _ => rfl
  · exact gives_build fun _ => rfl
  · refine .bind_any fun _ => .bind_any fun _ => .bind_any fun _ => ?_
    dsimp only
    split <;> exact gives_build fun _ => rfl
  · exact .bind_any fun _ => .bind_any fun _ => gives_build fun _ => rfl
  · exact .bind_any fun _ => gives_build fun _ => rfl
  · exact .bind_any fun _ => gives_build fun _ => rfl
  · exact .bind_any fun _ => gives_build fun _ => rfl
  · exact .bind_any fun _ => .bind_any fun _ => .bind_any fun _ => .bind_any fun _ => .ret rfl
  · exact .fail _

theorem inBlock_prints {span : Span} {load : Loading (List Node)} {ps : List (List Expr)}
    (h : Gives load fun ns => List.Forall₂ (Loads here) ps (Node.printsAll ns)) :
    Gives (inBlock span load) fun n => List.Forall₂ (Loads here) ps n.prints := by
  unfold inBlock
  exact .bind_any fun _ => .bind h fun ns hns => .bind_any fun _ => gives_build fun _ => hns

mutual

theorem loadStmt_prints :
    ∀ stmt : Stmt, Gives (loadStmt here stmt) fun n => List.Forall₂ (Loads here) stmt.prints n.prints
  | .decl .. => by
    unfold loadStmt
    exact .bind_any fun _ => .bind (gives_build (P := fun n => n.prints = []) fun _ => rfl) fun n hn =>
      .bind_any fun _ => .ret (hn ▸ .nil)
  | .lambdaDecl .. => by
    unfold loadStmt
    exact .bind_any fun _ => .bind_any fun _ => .bind_any fun _ => .bind_any fun _ => .bind_any
      fun _ => .bind_any fun _ =>
      .ret .nil
  | .funDecl .. => by
    unfold loadStmt
    exact .bind_any fun _ => .bind_any fun _ => .bind_any fun _ =>
      .bind (gives_build (P := fun n => n.prints = []) fun _ => rfl) fun n hn => .bind_any fun _ => .ret (hn ▸ .nil)
  | .letIn _ decls _ body => by
    unfold loadStmt
    refine .bind_any fun _ => .bind (loadBlock_prints decls) fun ds hds => .bind (loadBlock_prints body) fun ss hss =>
      .bind_any fun _ => .bind (gives_build (P := fun n => n.prints = Node.printsAll ss) fun _ => rfl) fun b hb =>
        gives_build fun tag => ?_
    rw [Stmt.prints, Node.prints, hb]
    exact List.rel_append hds hss
  | .ifThen _ _ _ body => by
    unfold loadStmt
    exact .bind_any fun _ => .bind (inBlock_prints (loadBlock_prints body)) fun b hb => gives_build fun _ => hb
  | .ifElse _ _ _ body _ other => by
    unfold loadStmt
    exact .bind_any fun _ => .bind (inBlock_prints (loadBlock_prints body)) fun b hb =>
      .bind (inBlock_prints (loadBlock_prints other)) fun o ho => gives_build fun _ => List.rel_append hb ho
  | .ifElseIf _ _ _ body link => by
    unfold loadStmt
    exact .bind_any fun _ => .bind (inBlock_prints (loadBlock_prints body)) fun b hb =>
      .bind (loadStmt_prints link) fun l hl => gives_build fun _ => List.rel_append hb hl
  | .block _ statements => by
    unfold loadStmt
    exact inBlock_prints (loadBlock_prints statements)
  | .ret .. => by
    unfold loadStmt
    exact .bind_any fun _ => gives_build fun _ => .nil
  | .print _ args => by
    unfold loadStmt
    have hloads : Gives (loadExprs here args) (Loads here args) := fun s ns s' h => ⟨s, s', h⟩
    exact .bind hloads fun ns hns => gives_build fun _ => .cons hns .nil
  | .expr value => by
    unfold loadStmt
    intro s n s' h
    rw [loadExpr_prints value s n s' h]
    exact .nil
  | .malformed .. => by
    unfold loadStmt
    exact .fail _

theorem loadBlock_prints :
    ∀ statements : List Stmt,
      Gives (loadBlock here statements) fun ns => List.Forall₂ (Loads here) (Stmt.printsAll statements)
      (Node.printsAll ns)
  | [] => by
    unfold loadBlock
    exact .ret .nil
  | stmt :: rest => by
    unfold loadBlock
    exact .bind (loadStmt_prints stmt) fun n hn => .bind_any fun _ => .bind (loadBlock_prints rest) fun ns hns =>
      .ret (List.rel_append hn hns)

end

theorem loadSequence_prints :
    ∀ statements : List Stmt,
      Gives (loadSequence here statements) fun ns => List.Forall₂ (Loads here) (Stmt.printsAll statements)
      (Node.printsAll ns)
  | [] => by
    unfold loadSequence
    exact .ret .nil
  | stmt :: rest => by
    unfold loadSequence
    exact .bind (loadStmt_prints stmt) fun n hn => .bind_any fun _ => .bind (loadSequence_prints rest) fun ns hns =>
      .ret (List.rel_append hn hns)

end Loading

namespace Lowering

/-- The code of the arguments, lowered from some state, stands in `code`, and then they are printed. -/
def Prints (c : Context) (code : Code) (args : List Node) : Prop :=
  ∃ s part s', (Plain.values c args).run s = .ok part s' ∧ part ++ [.prn] <:+: code

def PrintsAll (c : Context) (lists : List (List Node)) (code : Code) : Prop := ∀ args ∈ lists, Prints c code args

variable {c : Context} {a b : Code} {lists more : List (List Node)}

theorem PrintsAll.nil : PrintsAll c [] a := nofun

theorem PrintsAll.mono (h : PrintsAll c lists a) (hab : a <:+: b) : PrintsAll c lists b := by
  intro args hargs
  obtain ⟨s, part, s', hrun, hpart⟩ := h args hargs
  exact ⟨s, part, s', hrun, hpart.trans hab⟩

theorem PrintsAll.append (ha : PrintsAll c lists a) (hb : PrintsAll c more b) : PrintsAll c (lists ++ more) (a ++ b) :=
  List.forall_mem_append.mpr ⟨ha.mono (List.prefix_append a b).isInfix, hb.mono (List.suffix_append a b).isInfix⟩

theorem PrintsAll.branch (test : Code) {body : Code} (rest : Chain) (hbody : PrintsAll c lists body)
    (hrest : PrintsAll c more rest.layout) : PrintsAll c (lists ++ more) (Chain.branch test body rest).layout := by
  unfold Chain.layout
  have hbehind (i : Instruction) (code : Code) : code <:+ test ++ i :: code :=
    (List.suffix_cons i code).trans (List.suffix_append test (i :: code))
  refine List.forall_mem_append.mpr ⟨hbody.mono ?_, hrest.mono ?_⟩
  · exact ((List.prefix_append _ _).trans (List.prefix_append _ _)).isInfix.trans (hbehind _ _).isInfix
  · exact ((List.suffix_append _ _).trans (hbehind _ _)).isInfix

theorem finishChain_prints {chain : Chain} (h : PrintsAll c lists chain.layout) :
    Gives (finishChain chain) (PrintsAll c lists) := by
  unfold finishChain
  rw [Chain.code_eq_layout]
  exact .ret h

mutual

theorem stmt_prints : ∀ n : Node, Gives (Plain.stmt c n) (PrintsAll c n.prints)
  | .letIn _ decls body => by
    unfold Plain.stmt
    exact .bind (stmts_prints decls) fun _ hds => .bind (stmt_prints body) fun _ hb => .ret (hds.append hb)
  | .block _ statements => by
    unfold Plain.stmt
    exact stmts_prints statements
  | .ifThen _ _ body => by
    unfold Plain.stmt
    refine .bind_any fun test => .bind (stmt_prints body) fun _ hb => finishChain_prints ?_
    rw [Node.prints, ← List.append_nil body.prints]
    exact hb.branch test .done .nil
  | .ifElse _ _ body other => by
    unfold Plain.stmt
    exact .bind_any fun test => .bind (stmt_prints body) fun _ hb => .bind (stmt_prints other) fun o ho =>
      finishChain_prints (hb.branch test (.otherwise o) ho)
  | .ifElseIf _ _ body link => by
    unfold Plain.stmt
    exact .bind_any fun test => .bind (stmt_prints body) fun _ hb => .bind (chain_prints link) fun _ hl =>
      finishChain_prints (hb.branch test _ hl)
  | .print _ args => by
    unfold Plain.stmt
    intro s code s' h
    obtain ⟨part, s₁, hargs, h⟩ := bind_eq_ok.mp h
    obtain ⟨rfl, -⟩ := pure_eq_ok.mp h
    exact List.forall_mem_singleton.mpr ⟨s, part, s₁, hargs, List.infix_rfl⟩
  | .decl .. | .ret .. | .call .. | .binary .. | .comparison .. | .funDecl .. | .lambda .. | .access .. | .list ..
  | .int .. | .float .. | .str .. | .ident .. => fun _ _ _ _ => .nil

theorem stmts_prints : ∀ ns : List Node, Gives (Plain.stmts c ns) (PrintsAll c (Node.printsAll ns))
  | [] => fun _ _ _ _ => .nil
  | n :: rest => by
    unfold Plain.stmts
    exact .bind (stmt_prints n) fun _ hn => .bind (stmts_prints rest) fun _ hrest => .ret (hn.append hrest)

theorem chain_prints : ∀ n : Node, Gives (Plain.chain c n) fun chain => PrintsAll c n.prints chain.layout
  | .ifThen _ _ body => by
    unfold Plain.chain
    refine .bind_any fun test => .bind (stmt_prints body) fun _ hb => .ret ?_
    rw [Node.prints, ← List.append_nil body.prints]
    exact hb.branch test .done .nil
  | .ifElse _ _ body other => by
    unfold Plain.chain
    exact .bind_any fun test => .bind (stmt_prints body) fun _ hb => .bind (stmt_prints other) fun o ho =>
      .ret (hb.branch test (.otherwise o) ho)
  | .ifElseIf _ _ body link => by
    unfold Plain.chain
    exact .bind_any fun test => .bind (stmt_prints body) fun _ hb => .bind (chain_prints link) fun _ hl =>
      .ret (hb.branch test _ hl)
  | .decl .. | .letIn .. | .binary .. | .comparison .. | .block .. | .funDecl .. | .lambda .. | .call .. | .print ..
  | .ret .. | .access .. | .list .. | .int .. | .float .. | .str .. | .ident .. => by
    unfold Plain.chain
    exact .fail _

end

/-! ## Functions -/

theorem prints_of_isDeferrable {n : Node} (h : isDeferrable n = true) : n.prints = [] := by
  cases n <;> first | rfl | cases h

theorem printsAll_kept (later : List Node) :
    ∀ entries : List Node, Node.printsAll (kept later entries) = Node.printsAll entries
  | [] => rfl
  | n :: rest => by
    rw [kept, Node.printsAll, ← printsAll_kept later rest]
    split
    next hconsumed =>
      unfold isConsumed at hconsumed
      rw [Bool.and_eq_true] at hconsumed
      rw [prints_of_isDeferrable hconsumed.1, List.nil_append]
    next => rfl

theorem functions_print {table : FunctionTable} {options : Options} : ∀ records : List FunctionRecord,
    Gives (Plain.functions kept table options records)
      fun functions => ∀ r ∈ records, ∃ f ∈ functions, f.id = r.id ∧
      PrintsAll ⟨table, options, r.id, table.chain r.id⟩ (Node.printsAll r.sequence) f.code
  | [] => fun _ _ _ _ => nofun
  | r :: rest => by
    unfold Plain.functions
    have hfirst : Gives (Plain.function table options (kept (rest.flatMap (·.sequence)) r.sequence) r)
      fun f => f.id = r.id ∧
        PrintsAll ⟨table, options, r.id, table.chain r.id⟩ (Node.printsAll r.sequence) f.code := by
      unfold Plain.function
      refine .bind_any fun _ => .bind (stmts_prints _) fun code hcode => .ret ⟨rfl, ?_⟩
      rw [printsAll_kept] at hcode
      dsimp only
      split
      · exact hcode.mono (List.prefix_append code [.hlt]).isInfix
      · exact hcode
    refine .bind hfirst fun f hf => .bind (functions_print rest) fun fs hfs => .ret ?_
    refine List.forall_mem_cons.mpr ⟨⟨f, by simp, hf⟩, fun r' hr' => ?_⟩
    obtain ⟨f', hf', hprints⟩ := hfs r' hr'
    exact ⟨f', List.mem_cons_of_mem f hf', hprints⟩

end Lowering

variable {options : Options} {table : FunctionTable} {assembly : Assembly} {program : Program}

theorem Assembly.prints_of_ofTable (hload : (FunctionTable.ofProgram program).result = .ok table)
    (h : (Assembly.ofTable table options).result = .ok assembly) : ∀ r ∈ table.records,
      ∃ f ∈ assembly.functions, f.id = r.id ∧
        Lowering.PrintsAll ⟨table, options, r.id, table.chain r.id⟩ (Node.printsAll r.sequence) f.code := by
  -- No node is lowered twice, so lowering does what it does without the memory of visits.
  obtain ⟨last, -, hfunctions⟩ := Assembly.exists_of_ofTable h
  obtain ⟨last', hkept⟩ := (FunctionTable.distinct_of_ofProgram hload).exists_kept hfunctions
  exact Lowering.functions_print table.records _ _ _ hkept

theorem FunctionTable.main_of_ofProgram (h : (FunctionTable.ofProgram program).result = .ok table) :
    ∃ nodes, (⟨0, mainName, [], none, Node.entries nodes⟩ : FunctionRecord) ∈ table.records ∧
      List.Forall₂ (Loading.Loads ⟨0, false⟩) (Stmt.printsAll program) (Node.printsAll nodes) := by
  obtain ⟨nodes, s, hload, rfl⟩ := exists_of_ofProgram h
  have hmain : '#' ∉ mainName.toList := by decide
  obtain ⟨s₁, hloaded, ht⟩ := Loading.loaded_of_loadSequence rfl rfl hload
  have hchanges := hloaded.changes List.prefix_rfl (Loading.watched_initial hmain)
  rw [ht, Loading.entriesAll_map (hloaded.becomes numbered_initial List.prefix_rfl).length_eq fun _ _ => rfl] at hchanges
  refine ⟨nodes, ?_, Loading.loadSequence_prints program _ _ _ hload⟩
  unfold Loading.Changes at hchanges
  split at hchanges
  next =>
    rw [if_pos rfl] at hchanges
    exact List.mem_of_find?_eq_some hchanges
  next => exact absurd rfl hchanges.1

theorem Node.mem_printsAll {args : List Node} {ns : List Node} :
    args ∈ Node.printsAll ns ↔ ∃ n ∈ ns, args ∈ n.prints := by
  induction ns with
  | nil => simp [Node.printsAll]
  | cons n ns ih => simp [Node.printsAll, ih]

theorem Assembly.prints_sums (hload : (FunctionTable.ofProgram program).result = .ok table)
    (h : (Assembly.ofTable table options).result = .ok assembly) {r : FunctionRecord} (hr : r ∈ table.records)
    {n : Node} (hn : n ∈ r.sequence) {here : Place} {args : List Expr} {ns : List Node} (hns : ns ∈ n.prints)
    (hargs : Loading.Loads here args ns) (hsums : args.all (·.isSum []) = true) :
    ∃ f ∈ assembly.functions, f.id = r.id ∧ args.flatMap Expr.foundCode ++ [.prn] <:+: f.code := by
  obtain ⟨f, hf, hid, hprints⟩ := Assembly.prints_of_ofTable hload h r hr
  obtain ⟨s, part, s', hrun, hpart⟩ := hprints ns (Node.mem_printsAll.mpr ⟨n, hn, hns⟩)
  obtain ⟨k, scopes, hstands⟩ := hargs.stands hsums
  rw [Lowering.values_of_stands s hstands hsums] at hrun
  obtain ⟨rfl, rfl⟩ := EStateM.Result.ok.inj hrun
  exact ⟨f, hf, hid, hpart⟩

/-- Sums of literals that are printed, in any function and at any depth. A sum that is left to the machine joins texts if
and only if a text is found in an operand of it. So all sums are as their values say if and only if in each sum with a
text one is found. -/
theorem compileTree_printedSums {source : List Char} {tree : Tree}
    (h : (compileTree options source tree).result = .ok assembly) :
    (∃ table, (FunctionTable.ofProgram (.ofTree source tree)).result = .ok table ∧
      ∀ r ∈ table.records, ∀ n ∈ r.sequence, ∀ ns ∈ n.prints, ∀ here args, Loading.Loads here args ns →
        args.all (·.isSum []) = true →
          ∃ f ∈ assembly.functions, f.id = r.id ∧ args.flatMap Expr.foundCode ++ [.prn] <:+: f.code) ∧
    (∀ args ∈ Stmt.printsAll (Program.ofTree source tree), args.all (·.isSum []) = true →
      ∃ f ∈ assembly.functions, f.id = 0 ∧ args.flatMap Expr.foundCode ++ [.prn] <:+: f.code) ∧
    ∀ e : Expr,
      Program.sums e.foundCode = e.sums.map (fun p =>
        Variables.start.finds Lowering.maxTextual p.1 || Variables.start.finds Lowering.maxTextual p.2) ∧
      (Program.sums e.foundCode = e.sums.map (fun p => Variables.start.text p.1 || Variables.start.text p.2) ↔
        ∀ p ∈ e.sums, Variables.start.text p.1 || Variables.start.text p.2 →
          Variables.start.finds Lowering.maxTextual p.1 || Variables.start.finds Lowering.maxTextual p.2) := by
  obtain ⟨table, hload, hlower⟩ : ∃ table, (FunctionTable.ofProgram (.ofTree source tree)).result = .ok table ∧
      (Assembly.ofTable table options).result = .ok assembly := by
    unfold compileTree Outcome.andThen at h
    split at h
    next table hload => exact ⟨table, hload, h⟩
    next => cases h
  refine ⟨⟨table, hload, fun r hr n hn ns hns here args hargs hsums =>
    Assembly.prints_sums hload hlower hr hn hns hargs hsums⟩, fun args hargs hsums => ?_, fun e => ?_⟩
  · obtain ⟨nodes, hmain, hloads⟩ := FunctionTable.main_of_ofProgram hload
    obtain ⟨i, hi, rfl⟩ := List.getElem_of_mem hargs
    have hi' : i < (Node.printsAll nodes).length := hloads.length_eq ▸ hi
    obtain ⟨n, hn, hns⟩ := Node.mem_printsAll.mp (List.getElem_mem hi')
    have hentry : n ∈ Node.entries nodes := List.mem_flatMap.mpr ⟨n, hn, by simp⟩
    exact Assembly.prints_sums hload hlower hmain hentry hns (hloads.get hi hi') hsums
  · have hfound : Program.sums e.foundCode = _ := Expr.sums_sumCode _ e
    refine ⟨hfound, ?_⟩
    rw [hfound, List.map_inj_left]
    refine forall₂_congr fun p _ => ⟨fun heq htext => heq.trans htext,
      fun hfinds => Bool.eq_iff_iff.mpr ⟨?_, hfinds⟩⟩
    rw [Bool.or_eq_true, Bool.or_eq_true]
    exact Or.imp Variables.text_of_finds Variables.text_of_finds

def branchSumsSource : List Char := (
  "fun f() \x7b print(\"a\" + 1) \x7d " ++
  "if (1 > 0) \x7b print(1 + 2 + (\"b\" + 3), 4) \x7d").toList

theorem compileTree_printedSums_of_branchSums : ∃ tree assembly, Tree.parse branchSumsSource = .ok tree ∧
    (compileTree {} branchSumsSource tree).result = .ok assembly ∧
    ∃ args ∈ Stmt.printsAll (Program.ofTree branchSumsSource tree), args.all (·.isSum []) = true ∧
      Program.sums (args.flatMap Expr.foundCode) = [true, true] ∧
      ∃ f ∈ assembly.functions, f.id = 0 ∧ args.flatMap Expr.foundCode ++ [.prn] <:+: f.code := by
  obtain ⟨tree, hparse, hp⟩ := Tree.exists_of_parse branchSumsSource (p := fun tree =>
    (compileTree {} branchSumsSource tree).result.toOption.isSome &&
      (Stmt.printsAll (Program.ofTree branchSumsSource tree)).any fun args =>
        args.all (·.isSum []) && Program.sums (args.flatMap Expr.foundCode) = [true, true]) (by decide +kernel)
  rw [Bool.and_eq_true, List.any_eq_true] at hp
  obtain ⟨hcompile, args, hargs, hsums⟩ := hp
  rw [Bool.and_eq_true, decide_eq_true_eq] at hsums
  cases hresult : (compileTree {} branchSumsSource tree).result with
  | error e =>
    rw [hresult] at hcompile
    cases hcompile
  | ok assembly =>
    exact ⟨tree, assembly, hparse, hresult, args, hargs, hsums.1, hsums.2,
      (compileTree_printedSums hresult).2.1 args hargs hsums.1⟩

def deepTextSource : List Char := "print(\"a\"".toList ++ (List.replicate 34 " + 1".toList).flatten ++ ")".toList

/-- The text stands too deep for the last sum. -/
theorem not_joins_of_deepText : ∃ tree assembly e, Tree.parse deepTextSource = .ok tree ∧
    (compileTree {} deepTextSource tree).result = .ok assembly ∧
    Stmt.printsAll (Program.ofTree deepTextSource tree) = [[e]] ∧ e.isSum [] = true ∧
    e.sums.map (fun p => Variables.start.text p.1 || Variables.start.text p.2) = List.replicate 34 true ∧
    assembly.functions.map (fun f => Program.sums f.code) = [List.replicate 33 true ++ [false]] := by
  obtain ⟨tree, hparse, hp⟩ := Tree.exists_of_parse deepTextSource (p := fun tree =>
    (compileTree {} deepTextSource tree).result.toOption.any (fun assembly =>
      assembly.functions.map (fun f => Program.sums f.code) = [List.replicate 33 true ++ [false]]) &&
    (Stmt.printsAll (Program.ofTree deepTextSource tree)).map List.length = [1] &&
    (Stmt.printsAll (Program.ofTree deepTextSource tree)).flatten.all fun e => e.isSum [] &&
      e.sums.map (fun p => Variables.start.text p.1 || Variables.start.text p.2) = List.replicate 34 true)
    (by decide +kernel)
  rw [Bool.and_eq_true, Bool.and_eq_true, decide_eq_true_eq, List.all_eq_true] at hp
  obtain ⟨⟨hcode, hlengths⟩, hsums⟩ := hp
  obtain ⟨args, hprints, hlength⟩ := List.map_eq_singleton_iff.mp hlengths
  obtain ⟨e, rfl⟩ := List.length_eq_one_iff.mp hlength
  have hsum := hsums e (hprints ▸ by simp)
  rw [Bool.and_eq_true, decide_eq_true_eq] at hsum
  cases hresult : (compileTree {} deepTextSource tree).result with
  | error e =>
    rw [hresult] at hcode
    cases hcode
  | ok assembly =>
    rw [hresult] at hcode
    exact ⟨tree, assembly, e, hparse, hresult, hprints, hsum.1, hsum.2, of_decide_eq_true hcode⟩

end Bies
