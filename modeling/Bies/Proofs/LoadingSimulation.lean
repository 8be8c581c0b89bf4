import Bies.FunctionTable.OfProgram
import Bies.Proofs.LoweringSimulation

/-!
# Loading two programs side by side

Two runs of loading take the same steps if the programs have the same shape. A `Simulation` says what may stand
for what. Nodes get their numbers as they are made, so what is related is so in a world, which says what has
been made, and stays so in later worlds.
-/

namespace Bies

open List

/-! ## Programs of one shape -/

section
variable (spans : Span → Span → Prop) (names : String → Prop) (exprs : Expr → Expr → Prop)
  (bodies : Body → Body → Prop)
  (stmts : Stmt → Stmt → Prop)

/-- Two expressions of one kind with the same names and values, which may be used. What is inside is related. -/
inductive Expr.Paired : Expr → Expr → Prop where
  | int {s s' n} : spans s s' → Paired (.int s n) (.int s' n)
  | float {s s' x} : spans s s' → Paired (.float s x) (.float s' x)
  | str {s s' text} : spans s s' → Paired (.str s text) (.str s' text)
  | ident {s s' name} : spans s s' → names name → Paired (.ident s name) (.ident s' name)
  | arithmetic {s s' op left left' right right'} : spans s s' → exprs left left' →
    exprs right right' → Paired (.arithmetic s left op right) (.arithmetic s' left' op right')
  | comparison {s s' op left left' right right'} : spans s s' → exprs left left' →
    exprs right right' → Paired (.comparison s left op right) (.comparison s' left' op right')
  | call {s s' name args args'} : spans s s' → names name →
    Forall₂ exprs args args' →
    Paired (.call s name args) (.call s' name args')
  | access {s s' name index index'} : spans s s' → names name → exprs index index' →
    Paired (.access s name index) (.access s' name index')
  | list {s s' items items'} : spans s s' → Forall₂ exprs items items' →
    Paired (.list s items) (.list s' items')
  | lambda {s s' params body body'} : spans s s' → (∀ x ∈ params, names x) →
    bodies body body' → Paired (.lambda s params body) (.lambda s' params body')
  | malformed {s s' fault} : spans s s' → Paired (.malformed s fault) (.malformed s' fault)

inductive Body.Paired : Body → Body → Prop where
  | block {s s' statements statements'} : spans s s' → Forall₂ stmts statements statements' →
    Paired (.block s statements) (.block s' statements')
  | value {s s' value value'} : spans s s' → exprs value value' →
    Paired (.value s value) (.value s' value')

inductive Stmt.Paired : Stmt → Stmt → Prop where
  | decl {s s' constant name value value'} : spans s s' → names name →
    exprs value value' → Paired (.decl s constant name value) (.decl s' constant name value')
  | lambdaDecl {s s' l l' name params body body'} : spans s s' →
    spans l l' →
    names name → (∀ x ∈ params, names x) → bodies body body' →
    Paired (.lambdaDecl s name l params body) (.lambdaDecl s' name l' params body')
  | funDecl {s s' name params body body'} : spans s s' → names name →
    (∀ x ∈ params, names x) → bodies body body' → Paired (.funDecl s name params body)
      (.funDecl s' name params body')
  | letIn {s s' b b' decls decls' body body'} : spans s s' → spans b b' →
    Forall₂ stmts decls decls' →
    Forall₂ stmts body body' → Paired (.letIn s decls b body) (.letIn s' decls' b' body')
  | ifThen {s s' b b' test test' body body'} : spans s s' →
    spans b b' → exprs test test' →
    Forall₂ stmts body body' → Paired (.ifThen s test b body) (.ifThen s' test' b' body')
  | ifElse {s s' b b' o o' test test' body body' other other'} : spans s s' →
    spans b b' →
    spans o o' → exprs test test' → Forall₂ stmts body body' → Forall₂ stmts other other' →
    Paired (.ifElse s test b body o other) (.ifElse s' test' b' body' o' other')
  | ifElseIf {s s' b b' test test' body body' link link'} : spans s s' →
    spans b b' →
    exprs test test' → Forall₂ stmts body body' → stmts link link' →
    Paired (.ifElseIf s test b body link) (.ifElseIf s' test' b' body' link')
  | block {s s' statements statements'} : spans s s' → Forall₂ stmts statements statements' →
    Paired (.block s statements) (.block s' statements')
  | ret {s s' value value'} : spans s s' → exprs value value' →
    Paired (.ret s value) (.ret s' value')
  | print {s s' args args'} : spans s s' → Forall₂ exprs args args' →
    Paired (.print s args) (.print s' args')
  | expr {value value'} : exprs value value' → Paired (.expr value) (.expr value')
  | malformed {s s' fault} : spans s s' → Paired (.malformed s fault) (.malformed s' fault)

end

namespace Loading

structure Simulation where
  World : Type
  le : World → World → Prop
  rel : {α : Type} → World → (World → α → α → Prop) → Loading α → Loading α → Prop
  bind : ∀ {α β : Type} {w : World} {P : World → α → α → Prop} {Q : World → β → β → Prop}
    {x y : Loading α} {f h : α → Loading β}, rel w P x y →
    (∀ w', le w w' → ∀ a b, P w' a b → rel w' Q (f a) (h b)) →
      rel w Q (x >>= f) (y >>= h)
  ret : ∀ {α : Type} {w : World} {P : World → α → α → Prop} {a b : α}, P w a b → rel w P (pure a) (pure b)
  spans : Span → Span → Prop
  /-- The names that may be used. -/
  names : String → Prop
  tags : World → Tag → Tag → Prop
  tags_mono : ∀ {w w' : World} {t t' : Tag}, le w w' → tags w t t' → tags w' t t'
  spans_of_tags : ∀ {w : World} {t t' : Tag}, tags w t t' → spans t.span t'.span
  nodes : World → Node → Node → Prop
  nodes_mono : ∀ {w w' : World} {n n' : Node}, le w w' → nodes w n n' → nodes w' n n'
  nodes_iff : ∀ {w : World} {n n' : Node}, nodes w n n' ↔ n.Paired (tags w) names (nodes w) n'
  tables : World → FunctionTable → FunctionTable → Prop
  tables_mono : ∀ {w w' : World} {t t' : FunctionTable}, le w w' → tables w t t' → tables w' t t'
  size_eq : ∀ {w : World} {t t' : FunctionTable}, tables w t t' → t.size = t'.size
  exprs : Expr → Expr → Prop
  bodies : Body → Body → Prop
  stmts : Stmt → Stmt → Prop
  /-- Expressions have one shape, or they are loaded in the same way whatever they are. -/
  expr : ∀ {e e' : Expr}, exprs e e' → e.Paired spans names exprs bodies e' ∨
    ∀ (w : World) (here : Place), rel w nodes (loadExpr here e) (loadExpr here e')
  body : ∀ {b b' : Body}, bodies b b' → b.Paired spans exprs stmts b'
  stmt : ∀ {s s' : Stmt}, stmts s s' → s.Paired spans names exprs bodies stmts s'
  malformed : ∀ {α : Type} {w : World} {P : World → α → α → Prop} {s s' : Span} (fault : Fault),
    spans s s' →
    rel w P (throw (.malformed fault s)) (throw (.malformed fault s'))
  freshId : ∀ {w : World} {s s' : Span}, spans s s' →
    rel w (fun w i i' => tags w ⟨i, s⟩ ⟨i', s'⟩) freshId freshId
  append : ∀ {w : World} {n n' : Node} (f : FunctionId), nodes w n n' →
    rel w (fun _ _ _ => True) (append f n) (append f n')
  openLetIn : ∀ {w : World}, rel w (fun _ _ _ => True) (openScope (·.pushLetIn)) (openScope (·.pushLetIn))
  openBlock : ∀ {w : World}, rel w (fun _ _ _ => True) (openScope (·.pushBlock)) (openScope (·.pushBlock))
  openFunction : ∀ {w : World} (params : List String),
    rel w (fun _ _ _ => True) (openScope (·.pushFunction params)) (openScope (·.pushFunction params))
  closeScope : ∀ {w : World}, rel w (fun _ _ _ => True) closeScope closeScope
  declareName : ∀ {w : World} {n n' : Node} (name : String), nodes w n n' →
    rel w (fun _ _ _ => True) (declareName name n) (declareName name n')
  declareFunction : ∀ {w : World} {name : String} {params : List String} {s s' : Span} (parent : FunctionId),
    names name →
    (∀ x ∈ params, names x) → spans s s' →
    rel w (fun _ => Eq) (declareFunction parent name params s) (declareFunction parent name params s')
  declareLambda : ∀ {w : World} {t u : Tag} {params : List String} (parent : FunctionId), tags w t u →
    (∀ x ∈ params, names x) → rel w (fun _ => Eq) (Loading.declareFunction parent s!"lambda#{t.id}" params t.span)
      (Loading.declareFunction parent s!"lambda#{u.id}" params u.span)
  clear : ∀ {w : World} (f : FunctionId), rel w (fun _ _ _ => True) (clear f) (clear f)
  declared : ∀ {w : World} (f : FunctionId) (name : String),
    rel w (fun _ _ _ => True) (note (.declaredFunction f name)) (note (.declaredFunction f name))
  lifted : ∀ {w : World} (f : FunctionId) (name : String),
    rel w (fun _ _ _ => True) (note (.liftedLambda f name)) (note (.liftedLambda f name))
  liftedLambda : ∀ {w : World} {t u : Tag} (f : FunctionId), tags w t u →
    rel w (fun _ _ _ => True) (note (.liftedLambda f s!"lambda#{t.id}")) (note (.liftedLambda f s!"lambda#{u.id}"))
  loaded : ∀ {w : World} (size : Nat), rel w (fun _ _ _ => True) (note (.loadedTable size)) (note (.loadedTable size))
  arithmetic : ∀ {w : World} {left left' right right' : Node} {s s' : Span} (op : String), spans s s' →
    nodes w left left' →
    nodes w right right' → rel w nodes (buildArithmetic s left op right) (buildArithmetic s' left' op right')
  read : ∀ {w : World}, rel w (fun w s s' => tables w s.table s'.table) get get

namespace Simulation

variable (S : Simulation) {w w' : S.World} {n n' : Node} {ns ns' : List Node} {span span' : Span} {here : Place}

theorem paired (h : S.nodes w n n') : n.Paired (S.tags w) S.names (S.nodes w) n' := S.nodes_iff.mp h

theorem all_mono (hw : S.le w w') (h : Forall₂ (S.nodes w) ns ns') : Forall₂ (S.nodes w') ns ns' :=
  h.imp fun _ _ => S.nodes_mono hw

theorem build (hspan : S.spans span span') {make make' : Tag → Node}
    (h : ∀ w', S.le w w' → ∀ {t t' : Tag}, S.tags w' t t' → (make t).Paired (S.tags w') S.names
      (S.nodes w') (make' t')) :
    S.rel w S.nodes (build span make) (build span' make') :=
  S.bind (S.freshId hspan) fun w' hw' _ _ ht => S.ret (S.nodes_iff.mpr (h w' hw' ht))

theorem appendDecl (h : S.nodes w n n') :
    S.rel w (fun _ _ _ => True) (appendDecl here n) (appendDecl here n') := by
  unfold Loading.appendDecl
  rw [(S.paired h).isDecl_eq]
  by_cases hdecl : (n'.isDecl && !here.inValue) = true
  · rw [if_pos hdecl, if_pos hdecl]
    exact S.append _ h
  · rw [if_neg hdecl, if_neg hdecl]
    exact S.ret trivial

theorem inBlock (hspan : S.spans span span') {x y : Loading (List Node)}
    (h : ∀ w, S.rel w (fun w => Forall₂ (S.nodes w)) x y) : S.rel w S.nodes (inBlock span x) (inBlock span' y) := by
  refine S.bind S.openBlock fun w₁ _ _ _ _ => S.bind (h w₁) fun w₂ _ ns ns' hns => ?_
  exact S.bind S.closeScope fun w₃ h₃ _ _ _ => S.build hspan fun w₄ h₄ _ _ ht => .block ht
    (S.all_mono h₄ (S.all_mono h₃ hns))

theorem byShape {e e' : Expr} (h : S.exprs e e')
    (hpaired : e.Paired S.spans S.names S.exprs S.bodies e' → S.rel w S.nodes (loadExpr here e) (loadExpr here e')) :
    S.rel w S.nodes (loadExpr here e) (loadExpr here e') :=
  (S.expr h).elim hpaired fun hloads => hloads w here

-- The induction is on the first program. What stands for it has its shape, so both are read by the same case.
mutual

theorem loadExpr : ∀ {e e' : Expr} (w : S.World) (here : Place), S.exprs e e' →
    S.rel w S.nodes (loadExpr here e) (loadExpr here e')
  | .int .., _, w, here, h => S.byShape h fun hpaired => by
    cases hpaired with
    | int hs => exact S.build hs fun _ _ _ _ ht => .int ht
  | .float .., _, w, here, h => S.byShape h fun hpaired => by
    cases hpaired with
    | float hs => exact S.build hs fun _ _ _ _ ht => .float ht
  | .str .., _, w, here, h => S.byShape h fun hpaired => by
    cases hpaired with
    | str hs => exact S.build hs fun _ _ _ _ ht => .str ht
  | .ident .., _, w, here, h => S.byShape h fun hpaired => by
    cases hpaired with
    | ident hs hname => exact S.build hs fun _ _ _ _ ht => .ident ht hname
  | .arithmetic .., _, w, here, h => S.byShape h fun hpaired => by
    cases hpaired with
    | arithmetic hs hl hr =>
      simp only [Loading.loadExpr]
      refine S.bind (loadExpr w here hl) fun w₁ _ l l' hl => S.bind (loadExpr w₁ here hr) fun w₂ h₂ r r' hr => ?_
      exact S.arithmetic _ hs (S.nodes_mono h₂ hl) hr
  | .comparison .., _, w, here, h => S.byShape h fun hpaired => by
    cases hpaired with
    | comparison hs hl hr =>
      simp only [Loading.loadExpr]
      refine S.bind (loadExpr w here hl) fun w₁ _ l l' hl => S.bind (loadExpr w₁ here hr) fun w₂ h₂ r r' hr => ?_
      exact S.build hs fun w₃ h₃ _ _ ht => .comparison ht (S.nodes_mono h₃ (S.nodes_mono h₂ hl))
        (S.nodes_mono h₃ hr)
  | .call .., _, w, here, h => S.byShape h fun hpaired => by
    cases hpaired with
    | call hs hname hargs =>
      simp only [Loading.loadExpr]
      refine S.bind (loadExprs w here hargs) fun w₁ _ ns ns' hns => ?_
      exact S.build hs fun w₂ h₂ _ _ ht => .call ht hname (S.all_mono h₂ hns)
  | .access .., _, w, here, h => S.byShape h fun hpaired => by
    cases hpaired with
    | access hs hname hindex =>
      simp only [Loading.loadExpr]
      refine S.bind (loadExpr w here hindex) fun w₁ _ n n' hn => ?_
      exact S.build hs fun w₂ h₂ _ _ ht => .access ht hname (S.nodes_mono h₂ hn)
  | .list .., _, w, here, h => S.byShape h fun hpaired => by
    cases hpaired with
    | list hs hitems =>
      simp only [Loading.loadExpr]
      refine S.bind (loadItems w here hitems) fun w₁ _ ns ns' hns => ?_
      exact S.build hs fun w₂ h₂ _ _ ht => .list ht (S.all_mono h₂ hns)
  | .lambda .., _, w, here, h => S.byShape h fun hpaired => by
    cases hpaired with
    | lambda hs hparams hbody =>
      simp only [Loading.loadExpr]
      refine S.bind (S.freshId hs) fun w₁ _ i i' ht => ?_
      have hdeclared := S.declareLambda here.function ht hparams
      refine S.bind hdeclared fun w₂ h₂ f _ hf => ?_
      obtain rfl := hf
      have ht₂ := S.tags_mono h₂ ht
      have hlifted := S.liftedLambda f ht₂
      refine S.bind hlifted fun w₃ h₃ _ _ _ => S.bind (loadBody w₃ f _ hbody) fun w₄ h₄ n n' hn => ?_
      exact S.ret (S.nodes_iff.mpr (.lambda (S.tags_mono h₄ (S.tags_mono h₃ ht₂)) hn))
  | .malformed .., _, w, here, h => S.byShape h fun hpaired => by
    cases hpaired with
    | malformed hs => exact S.malformed _ hs
termination_by structural e => e

theorem loadExprs : ∀ {es es' : List Expr} (w : S.World) (here : Place), Forall₂ S.exprs es es' →
    S.rel w (fun w => Forall₂ (S.nodes w)) (loadExprs here es) (loadExprs here es')
  | [], _, _, _, .nil => S.ret .nil
  | _ :: _, _, w, here, .cons he hes => by
    simp only [Loading.loadExprs]
    refine S.bind (loadExpr w here he) fun w₁ _ n n' hn => S.bind (loadExprs w₁ here hes)
      fun w₂ h₂ ns ns' hns => ?_
    exact S.ret (.cons (S.nodes_mono h₂ hn) hns)
termination_by structural es => es

theorem loadItems : ∀ {es es' : List Expr} (w : S.World) (here : Place), Forall₂ S.exprs es es' →
    S.rel w (fun w => Forall₂ (S.nodes w)) (loadItems here es) (loadItems here es')
  | [], _, _, _, .nil => S.ret .nil
  | _ :: _, _, w, here, .cons he hes => by
    simp only [Loading.loadItems]
    refine S.bind (loadExpr w here he) fun w₁ _ n n' hn => ?_
    rw [(S.paired hn).isLiteral_eq]
    by_cases hliteral : n'.isLiteral
    · rw [if_pos hliteral, if_pos hliteral]
      refine S.bind (loadItems w₁ here hes) fun w₂ h₂ ns ns' hns => ?_
      exact S.ret (.cons (S.nodes_mono h₂ hn) hns)
    · rw [if_neg hliteral, if_neg hliteral]
      exact S.bind (S.malformed (P := fun _ _ _ => False) _ (S.spans_of_tags (S.paired hn).tags_tag))
        fun _ _ _ _ h => h.elim
termination_by structural es => es

theorem loadBody : ∀ {b b' : Body} (w : S.World) (f : FunctionId) (params : List String), S.bodies b b' →
    S.rel w S.nodes (loadBody f params b) (loadBody f params b')
  | .block .., _, w, f, params, h => by
    cases S.body h with
    | block hs hstatements =>
      simp only [Loading.loadBody]
      refine S.bind (S.openFunction params) fun w₁ _ _ _ _ => ?_
      refine S.bind (loadSequence w₁ ⟨f, false⟩ hstatements) fun w₂ _ ns ns' hns => S.bind S.closeScope
        fun w₃ h₃ _ _ _ => ?_
      exact S.build hs fun w₄ h₄ _ _ ht => .block ht (S.all_mono h₄ (S.all_mono h₃ hns))
  | .value .., _, w, f, params, h => by
    cases S.body h with
    | value hs hvalue =>
      simp only [Loading.loadBody]
      refine S.bind (S.openFunction params) fun w₁ _ _ _ _ => ?_
      refine S.bind (loadExpr w₁ ⟨f, false⟩ hvalue) fun w₂ _ n n' hn => S.bind S.closeScope
        fun w₃ h₃ _ _ _ => ?_
      refine S.bind (S.build hs fun w₄ h₄ _ _ ht => .ret ht (S.nodes_mono h₄ (S.nodes_mono h₃ hn)))
        fun w₄ _ m m' hm => ?_
      exact S.bind (S.append f hm) fun w₅ h₅ _ _ _ => S.ret (S.nodes_mono h₅ hm)
termination_by structural b => b

theorem loadStmt : ∀ {s s' : Stmt} (w : S.World) (here : Place), S.stmts s s' →
    S.rel w S.nodes (loadStmt here s) (loadStmt here s')
  | .decl .., _, w, here, h => by
    cases S.stmt h with
    | decl hs hname hvalue =>
      simp only [Loading.loadStmt]
      refine S.bind (loadExpr w _ hvalue) fun w₁ _ v v' hv => ?_
      refine S.bind (S.build hs fun w₂ h₂ _ _ ht => .decl ht hname (S.nodes_mono h₂ hv))
        fun w₂ h₂ n n' hn => ?_
      exact S.bind (S.declareName _ (S.nodes_mono h₂ hv)) fun w₃ h₃ _ _ _ => S.ret (S.nodes_mono h₃ hn)
  | .lambdaDecl _ name _ params _, _, w, here, h => by
    cases S.stmt h with
    | lambdaDecl hs hl hname hparams hbody =>
      simp only [Loading.loadStmt]
      refine S.bind (S.freshId hs) fun w₁ _ i i' ht => S.bind (S.declareFunction _ hname hparams hl)
        fun w₂ h₂ f _ hf => ?_
      obtain rfl := hf
      refine S.bind (S.clear f) fun w₃ h₃ _ _ _ => S.bind (S.lifted f _) fun w₄ h₄ _ _ _ => ?_
      refine S.bind (loadBody w₄ f _ hbody) fun w₅ h₅ _ _ _ => ?_
      have ht₅ := S.tags_mono h₅ (S.tags_mono h₄ (S.tags_mono h₃ (S.tags_mono h₂ ht)))
      have hnode : S.nodes w₅ (.funDecl ⟨i, _⟩ name params f) (.funDecl ⟨i', _⟩ name params f) :=
        S.nodes_iff.mpr (.funDecl ht₅)
      exact S.bind (S.declareName _ hnode) fun w₆ h₆ _ _ _ => S.ret (S.nodes_mono h₆ hnode)
  | .funDecl .., _, w, here, h => by
    cases S.stmt h with
    | funDecl hs hname hparams hbody =>
      simp only [Loading.loadStmt]
      refine S.bind (S.declareFunction _ hname hparams hs) fun w₁ _ f _ hf => ?_
      obtain rfl := hf
      refine S.bind (S.declared f _) fun w₂ _ _ _ _ => S.bind (loadBody w₂ f _ hbody) fun w₃ _ _ _ _ => ?_
      refine S.bind (S.build hs fun _ _ _ _ ht => .funDecl ht) fun w₄ _ n n' hn => ?_
      exact S.bind (S.declareName _ hn) fun w₅ h₅ _ _ _ => S.ret (S.nodes_mono h₅ hn)
  | .letIn .., _, w, here, h => by
    cases S.stmt h with
    | letIn hs hb hdecls hbody =>
      simp only [Loading.loadStmt]
      refine S.bind S.openLetIn fun w₁ _ _ _ _ => S.bind (loadBlock w₁ here hdecls) fun w₂ _ ns ns' hns => ?_
      refine S.bind (loadBlock w₂ here hbody) fun w₃ h₃ ms ms' hms => S.bind S.closeScope fun w₄ h₄ _ _ _ => ?_
      refine S.bind (S.build hb fun w₅ h₅ _ _ ht => .block ht (S.all_mono h₅ (S.all_mono h₄ hms)))
        fun w₅ h₅ b b' hb => ?_
      have hns₅ := S.all_mono h₅ (S.all_mono h₄ (S.all_mono h₃ hns))
      exact S.build hs fun w₆ h₆ _ _ ht => .letIn ht (S.all_mono h₆ hns₅) (S.nodes_mono h₆ hb)
  | .ifThen .., _, w, here, h => by
    cases S.stmt h with
    | ifThen hs hb htest hbody =>
      simp only [Loading.loadStmt]
      refine S.bind (loadExpr w here htest) fun w₁ _ n n' hn => ?_
      refine S.bind (S.inBlock hb fun w => loadBlock w here hbody) fun w₂ h₂ b b' hb => ?_
      exact S.build hs fun w₃ h₃ _ _ ht => .ifThen ht (S.nodes_mono h₃ (S.nodes_mono h₂ hn))
        (S.nodes_mono h₃ hb)
  | .ifElse .., _, w, here, h => by
    cases S.stmt h with
    | ifElse hs hb ho htest hbody hother =>
      simp only [Loading.loadStmt]
      refine S.bind (loadExpr w here htest) fun w₁ _ n n' hn => ?_
      refine S.bind (S.inBlock hb fun w => loadBlock w here hbody) fun w₂ h₂ b b' hb => ?_
      refine S.bind (S.inBlock ho fun w => loadBlock w here hother) fun w₃ h₃ o o' ho => ?_
      have hn₃ := S.nodes_mono h₃ (S.nodes_mono h₂ hn)
      exact S.build hs fun w₄ h₄ _ _ ht =>
        .ifElse ht (S.nodes_mono h₄ hn₃) (S.nodes_mono h₄ (S.nodes_mono h₃ hb)) (S.nodes_mono h₄ ho)
  | .ifElseIf .., _, w, here, h => by
    cases S.stmt h with
    | ifElseIf hs hb htest hbody hlink =>
      simp only [Loading.loadStmt]
      refine S.bind (loadExpr w here htest) fun w₁ _ n n' hn => ?_
      refine S.bind (S.inBlock hb fun w => loadBlock w here hbody) fun w₂ h₂ b b' hb => ?_
      refine S.bind (loadStmt w₂ here hlink) fun w₃ h₃ l l' hl => ?_
      have hn₃ := S.nodes_mono h₃ (S.nodes_mono h₂ hn)
      exact S.build hs fun w₄ h₄ _ _ ht =>
        .ifElseIf ht (S.nodes_mono h₄ hn₃) (S.nodes_mono h₄ (S.nodes_mono h₃ hb)) (S.nodes_mono h₄ hl)
  | .block .., _, w, here, h => by
    cases S.stmt h with
    | block hs hstatements =>
      simp only [Loading.loadStmt]
      exact S.inBlock hs fun w => loadBlock w here hstatements
  | .ret .., _, w, here, h => by
    cases S.stmt h with
    | ret hs hvalue =>
      simp only [Loading.loadStmt]
      refine S.bind (loadExpr w here hvalue) fun w₁ _ v v' hv => ?_
      exact S.build hs fun w₂ h₂ _ _ ht => .ret ht (S.nodes_mono h₂ hv)
  | .print .., _, w, here, h => by
    cases S.stmt h with
    | print hs hargs =>
      simp only [Loading.loadStmt]
      refine S.bind (loadExprs w here hargs) fun w₁ _ ns ns' hns => ?_
      exact S.build hs fun w₂ h₂ _ _ ht => .print ht (S.all_mono h₂ hns)
  | .expr .., _, w, here, h => by
    cases S.stmt h with
    | expr hvalue =>
      simp only [Loading.loadStmt]
      exact loadExpr w here hvalue
  | .malformed .., _, w, here, h => by
    cases S.stmt h with
    | malformed hs => exact S.malformed _ hs
termination_by structural s => s

theorem loadSequence : ∀ {ss ss' : List Stmt} (w : S.World) (here : Place), Forall₂ S.stmts ss ss' →
    S.rel w (fun w => Forall₂ (S.nodes w)) (loadSequence here ss) (loadSequence here ss')
  | [], _, _, _, .nil => S.ret .nil
  | _ :: _, _, w, here, .cons hs hss => by
    simp only [Loading.loadSequence]
    refine S.bind (loadStmt w here hs) fun w₁ _ n n' hn => S.bind (S.append _ hn) fun w₂ h₂ _ _ _ => ?_
    refine S.bind (loadSequence w₂ here hss) fun w₃ h₃ ns ns' hns => ?_
    exact S.ret (.cons (S.nodes_mono h₃ (S.nodes_mono h₂ hn)) hns)
termination_by structural ss => ss

theorem loadBlock : ∀ {ss ss' : List Stmt} (w : S.World) (here : Place), Forall₂ S.stmts ss ss' →
    S.rel w (fun w => Forall₂ (S.nodes w)) (loadBlock here ss) (loadBlock here ss')
  | [], _, _, _, .nil => S.ret .nil
  | _ :: _, _, w, here, .cons hs hss => by
    simp only [Loading.loadBlock]
    refine S.bind (loadStmt w here hs) fun w₁ _ n n' hn => S.bind (S.appendDecl hn) fun w₂ h₂ _ _ _ => ?_
    refine S.bind (loadBlock w₂ here hss) fun w₃ h₃ ns ns' hns => ?_
    exact S.ret (.cons (S.nodes_mono h₃ (S.nodes_mono h₂ hn)) hns)
termination_by structural ss => ss

end

theorem load {program program' : Program} (h : Forall₂ S.stmts program program') :
    S.rel w S.tables (load program) (load program') := by
  refine S.bind (S.loadSequence w _ h) fun w₁ _ _ _ _ => S.bind S.read fun w₂ _ s s' hs => ?_
  dsimp only
  rw [S.size_eq hs]
  exact S.bind (S.loaded _) fun w₃ h₃ _ _ _ => S.ret (S.tables_mono h₃ hs)

end Simulation
end Loading
end Bies
