import Bies.Proofs.LoadedBodies
import Bies.Proofs.ParsedPrograms

/-!
# Statements in the order of the source

For every tree that is loaded, if no two functions in it have the same name: the sequence of each function has one
node for each statement of its body, in order, and before it one entry for each declaration that is nested in the
statement. The functions come in the order in which a walk through the tree reaches them.
-/

namespace Bies

open Loading Program

/-! ## Functions and declarations of a tree -/

structure FunctionTree where
  name : Option Tree
  params : Tree
  body : Tree

namespace Tree

mutual

def functions : Tree → List FunctionTree
  | .node .functionDeclaration _ [name, params, body] => ⟨some name, params, body⟩ :: body.functions
  | .node .letDeclaration _ [name, .node .lambda _ [params, body]]
  | .node .constDeclaration _ [name, .node .lambda _ [params, body]] => ⟨some name, params, body⟩ :: body.functions
  | .node .lambda _ [params, body] => ⟨none, params, body⟩ :: body.functions
  | .node kind _ children => if kind.isLeaf then [] else functionsAll children

def functionsAll : List Tree → List FunctionTree
  | [] => []
  | t :: rest => t.functions ++ functionsAll rest

end

def declaresValue : Tree → Bool
  | .node .letDeclaration _ [_, value] | .node .constDeclaration _ [_, value] => value.kind != .lambda
  | _ => false

mutual

/-- The declarations of variables that are nested in a statement, without those in functions inside. -/
def nested : Tree → List Tree
  | .node .block _ children | .node .letIn _ children | .node .ifStatement _ children | .node .elseIf _ children
  | .node .elseStatement _ children => nestedAll children
  | _ => []

def nestedAll : List Tree → List Tree
  | [] => []
  | t :: rest => t.nested ++ (if t.declaresValue then [t] else []) ++ nestedAll rest

end

end Tree

def Tree.functionNames (source : List Char) (t : Tree) : List String :=
  t.functions.filterMap fun f => f.name.map (·.text source)

def Program.bodyOf (source : List Char) (t : Tree) : Body :=
  if t.kind = .block then .block t.span (blockOf source t) else .value t.span (exprOf source t)

def FunctionTree.declared (source : List Char) (f : FunctionTree) : Declared where
  name := f.name.map (·.text source)
  params := f.params.children.map (·.text source)
  body := bodyOf source f.body

/-! ## Programs that are loaded have no fault -/

def faultless : Bounds := { fault := fun _ => False }

theorem Gives.always {ε σ α : Type} {x : EStateM ε σ α} {p : Prop} (h : p) : Gives x fun _ => p := fun _ _ _ _ => h

theorem gives_inBlock {span : Span} {load : Loading (List Node)} {p : Prop} (h : Gives load fun _ => p) :
    Gives (inBlock span load) fun _ => p := by
  unfold inBlock
  exact .bind_any fun _ => .bind h fun _ hp => .always hp

mutual

theorem loadExpr_faultless (here : Place) :
    ∀ e : Expr, e.Within {} → Gives (loadExpr here e) fun _ => e.Within faultless
  | .int .., _ | .float .., _ | .str .., _ | .ident .., _ => .always trivial
  | .arithmetic _ left _ right, w | .comparison _ left _ right, w => by
    unfold loadExpr
    exact .bind (loadExpr_faultless here left w.2.1) fun _ hl => .bind (loadExpr_faultless here right w.2.2) fun _ hr =>
      .always ⟨trivial, hl, hr⟩
  | .call _ _ args, w => by
    unfold loadExpr
    exact .bind (loadExprs_faultless here args w) fun _ h => .always h
  | .access _ _ index, w => by
    unfold loadExpr
    exact .bind (loadExpr_faultless here index w) fun _ h => .always h
  | .list _ items, w => by
    unfold loadExpr
    exact .bind (loadItems_faultless here items w) fun _ h => .always h
  | .lambda _ params body, w => by
    unfold loadExpr
    exact .bind_any fun _ => .bind_any fun f => .bind_any fun _ => .bind (loadBody_faultless f params body w) fun _ h =>
      .always h
  | .malformed .., _ => by
    unfold loadExpr
    exact .fail _

theorem loadExprs_faultless (here : Place) : ∀ es : List Expr, Expr.AllWithin {} es →
    Gives (loadExprs here es) fun _ => Expr.AllWithin faultless es
  | [], _ => .always trivial
  | e :: rest, w => by
    unfold loadExprs
    exact .bind (loadExpr_faultless here e w.1) fun _ h => .bind (loadExprs_faultless here rest w.2) fun _ hs =>
      .always ⟨h, hs⟩

theorem loadItems_faultless (here : Place) : ∀ es : List Expr, Expr.AllWithin {} es →
    Gives (loadItems here es) fun _ => Expr.AllWithin faultless es
  | [], _ => .always trivial
  | e :: rest, w => by
    unfold loadItems
    refine .bind (loadExpr_faultless here e w.1) fun n h => ?_
    have hrest : Gives (loadItems here rest >>= fun ns => pure (n :: ns)) fun _ => Expr.AllWithin faultless
      (e :: rest) :=
      .bind (loadItems_faultless here rest w.2) fun _ hs => .always ⟨h, hs⟩
    dsimp only
    split
    · exact hrest
    · exact .bind_any fun _ => hrest

theorem loadBody_faultless (f : FunctionId) (params : List String) : ∀ body : Body, body.Within {} →
    Gives (loadBody f params body) fun _ => body.Within faultless
  | .block _ statements, w => by
    unfold loadBody
    exact .bind_any fun _ => .bind (loadSequence_faultless _ statements w) fun _ h => .always h
  | .value _ value, w => by
    unfold loadBody
    exact .bind_any fun _ => .bind (loadExpr_faultless _ value w) fun _ h => .always h

theorem loadStmt_faultless (here : Place) : ∀ stmt : Stmt, stmt.Within {} →
    Gives (loadStmt here stmt) fun _ => stmt.Within faultless
  | .decl _ _ _ value, w => by
    unfold loadStmt
    exact .bind (loadExpr_faultless _ value w) fun _ h => .always h
  | .lambdaDecl _ _ _ params body, w => by
    unfold loadStmt
    exact .bind_any fun _ => .bind_any fun f => .bind_any fun _ => .bind_any fun _ =>
      .bind (loadBody_faultless f params body w.2) fun _ h => .always ⟨trivial, h⟩
  | .funDecl _ _ params body, w => by
    unfold loadStmt
    exact .bind_any fun f => .bind_any fun _ => .bind (loadBody_faultless f params body w.2) fun _ h =>
      .always ⟨trivial, h⟩
  | .letIn _ decls _ body, w => by
    unfold loadStmt
    exact .bind_any fun _ => .bind (loadBlock_faultless here decls w.1) fun _ hd =>
      .bind (loadBlock_faultless here body w.2) fun _ hb => .always ⟨hd, hb⟩
  | .ifThen _ test _ body, w => by
    unfold loadStmt
    exact .bind (loadExpr_faultless here test w.1) fun _ ht =>
      .bind (gives_inBlock (loadBlock_faultless here body w.2)) fun _ hb => .always ⟨ht, hb⟩
  | .ifElse _ test _ body _ other, w => by
    unfold loadStmt
    exact .bind (loadExpr_faultless here test w.1) fun _ ht =>
      .bind (gives_inBlock (loadBlock_faultless here body w.2.1)) fun _ hb =>
        .bind (gives_inBlock (loadBlock_faultless here other w.2.2)) fun _ ho => .always ⟨ht, hb, ho⟩
  | .ifElseIf _ test _ body link, w => by
    unfold loadStmt
    exact .bind (loadExpr_faultless here test w.1) fun _ ht =>
      .bind (gives_inBlock (loadBlock_faultless here body w.2.1)) fun _ hb =>
        .bind (loadStmt_faultless here link w.2.2.2) fun _ hl => .always ⟨ht, hb, w.2.2.1, hl⟩
  | .block _ statements, w => by
    unfold loadStmt
    exact gives_inBlock (loadBlock_faultless here statements w)
  | .ret _ value, w => by
    unfold loadStmt
    exact .bind (loadExpr_faultless here value w) fun _ h => .always h
  | .print _ args, w => by
    unfold loadStmt
    exact .bind (loadExprs_faultless here args w) fun _ h => .always h
  | .expr value, w => by
    unfold loadStmt
    exact loadExpr_faultless here value w
  | .malformed .., _ => by
    unfold loadStmt
    exact .fail _

theorem loadSequence_faultless (here : Place) : ∀ statements : List Stmt, Stmt.AllWithin {} statements →
    Gives (loadSequence here statements) fun _ => Stmt.AllWithin faultless statements
  | [], _ => .always trivial
  | stmt :: rest, w => by
    unfold loadSequence
    exact .bind (loadStmt_faultless here stmt w.1) fun _ h => .bind_any fun _ =>
      .bind (loadSequence_faultless here rest w.2) fun _ hs => .always ⟨h, hs⟩

theorem loadBlock_faultless (here : Place) : ∀ statements : List Stmt, Stmt.AllWithin {} statements →
    Gives (loadBlock here statements) fun _ => Stmt.AllWithin faultless statements
  | [], _ => .always trivial
  | stmt :: rest, w => by
    unfold loadBlock
    exact .bind (loadStmt_faultless here stmt w.1) fun _ h => .bind_any fun _ =>
      .bind (loadBlock_faultless here rest w.2) fun _ hs => .always ⟨h, hs⟩

end

theorem faultless_of_ofProgram {program : Program} {table : FunctionTable} (hw : Stmt.AllWithin {} program)
    (h : (FunctionTable.ofProgram program).result = .ok table) : Stmt.AllWithin faultless program := by
  obtain ⟨_, hrun⟩ := Outcome.ofRun_eq_ok h
  obtain ⟨_, _, hload, _⟩ := bind_eq_ok.mp hrun
  exact loadSequence_faultless _ program hw _ _ _ hload

section
variable {b : Bounds} {d : Declared}

mutual

theorem Expr.within_of_mem_functions : ∀ e : Expr, e.Within b → d ∈ e.functions → d.body.Within b
  | .arithmetic _ left _ right, h, hd | .comparison _ left _ right, h, hd => by
    rcases List.mem_append.mp hd with hd | hd
    · exact left.within_of_mem_functions h.2.1 hd
    · exact right.within_of_mem_functions h.2.2 hd
  | .call _ _ args, h, hd => Expr.within_of_mem_functionsAll args h hd
  | .access _ _ index, h, hd => index.within_of_mem_functions h hd
  | .list _ items, h, hd => Expr.within_of_mem_functionsAll items h hd
  | .lambda _ _ body, h, hd => by
    rcases List.mem_cons.mp hd with rfl | hd
    · exact h
    · exact body.within_of_mem_functions h hd
  | .int .., _, hd | .float .., _, hd | .str .., _, hd | .ident .., _, hd | .malformed .., _, hd => nomatch hd

theorem Expr.within_of_mem_functionsAll : ∀ es : List Expr, Expr.AllWithin b es → d ∈ Expr.functionsAll es →
    d.body.Within b
  | [], _, hd => nomatch hd
  | e :: rest, h, hd => by
    rcases List.mem_append.mp hd with hd | hd
    · exact e.within_of_mem_functions h.1 hd
    · exact Expr.within_of_mem_functionsAll rest h.2 hd

theorem Body.within_of_mem_functions : ∀ body : Body, body.Within b → d ∈ body.functions → d.body.Within b
  | .block _ statements, h, hd => Stmt.within_of_mem_functionsAll statements h hd
  | .value _ value, h, hd => value.within_of_mem_functions h hd

theorem Stmt.within_of_mem_functions : ∀ stmt : Stmt, stmt.Within b → d ∈ stmt.functions → d.body.Within b
  | .decl _ _ _ value, h, hd | .ret _ value, h, hd | .expr value, h, hd => value.within_of_mem_functions h hd
  | .lambdaDecl _ _ _ _ body, h, hd | .funDecl _ _ _ body, h, hd => by
    rcases List.mem_cons.mp hd with rfl | hd
    · exact h.2
    · exact body.within_of_mem_functions h.2 hd
  | .letIn _ decls _ body, h, hd => by
    rcases List.mem_append.mp hd with hd | hd
    · exact Stmt.within_of_mem_functionsAll decls h.1 hd
    · exact Stmt.within_of_mem_functionsAll body h.2 hd
  | .ifThen _ test _ body, h, hd => by
    rcases List.mem_append.mp hd with hd | hd
    · exact test.within_of_mem_functions h.1 hd
    · exact Stmt.within_of_mem_functionsAll body h.2 hd
  | .ifElse _ test _ body _ other, h, hd => by
    rcases List.mem_append.mp hd with hd | hd
    · exact test.within_of_mem_functions h.1 hd
    rcases List.mem_append.mp hd with hd | hd
    · exact Stmt.within_of_mem_functionsAll body h.2.1 hd
    · exact Stmt.within_of_mem_functionsAll other h.2.2 hd
  | .ifElseIf _ test _ body link, h, hd => by
    rcases List.mem_append.mp hd with hd | hd
    · exact test.within_of_mem_functions h.1 hd
    rcases List.mem_append.mp hd with hd | hd
    · exact Stmt.within_of_mem_functionsAll body h.2.1 hd
    · exact link.within_of_mem_functions h.2.2.2 hd
  | .block _ statements, h, hd => Stmt.within_of_mem_functionsAll statements h hd
  | .print _ args, h, hd => Expr.within_of_mem_functionsAll args h hd
  | .malformed .., _, hd => nomatch hd

theorem Stmt.within_of_mem_functionsAll : ∀ statements : List Stmt, Stmt.AllWithin b statements →
    d ∈ Stmt.functionsAll statements → d.body.Within b
  | [], _, hd => nomatch hd
  | stmt :: rest, h, hd => by
    rcases List.mem_append.mp hd with hd | hd
    · exact stmt.within_of_mem_functions h.1 hd
    · exact Stmt.within_of_mem_functionsAll rest h.2 hd

end

end

/-! ## Trees and their programs -/

section
variable {source : List Char}

section
variable {t : Tree} {constant : Bool}

theorem nameOf?_eq_some {name : String} (h : nameOf? source t = some name) :
    t.kind = .identifier ∧ name = t.text source := by
  unfold nameOf? at h
  split at h
  next hkind =>
    cases h
    exact ⟨hkind, rfl⟩
  next => cases h

theorem paramsOf_eq_ok {params : List String} (h : paramsOf source t = .ok params) :
    params = t.children.map (·.text source) := by
  unfold paramsOf at h
  split at h
  · generalize t.children = ts at h
    induction ts generalizing params with
    | nil =>
      cases h
      rfl
    | cons p ps ih =>
      rw [List.mapM_cons] at h
      cases hname : nameOf? source p with
      | none =>
        rw [hname] at h
        cases h
      | some name =>
        rw [hname] at h
        generalize hrest : List.mapM (m := Except (Span × Fault)) _ ps = rest at h
        cases rest with
        | error e => cases h
        | ok names =>
          cases h
          rw [List.map_cons, ← ih hrest, (nameOf?_eq_some hname).2]
  · cases h

theorem exprOf_lambda {span : Span} {children : List Tree}
    (h : (exprOf source (.node .lambda span children)).Within faultless) :
    ∃ params body, children = [params, body] ∧ exprOf source (.node .lambda span children) =
      .lambda span (params.children.map (·.text source)) (bodyOf source body) := by
  unfold exprOf at h ⊢
  dsimp only at h ⊢
  split at h
  next params body =>
    refine ⟨params, body, rfl, ?_⟩
    split at h
    next => exact h.elim
    next names hnames =>
      obtain rfl := paramsOf_eq_ok hnames
      unfold bodyOf
      split <;> rfl
  next => exact h.elim

theorem kind_of_exprOf_lambda {span : Span} {params : List String} {body : Body}
    (h : exprOf source t = .lambda span params body) : t.kind = .lambda := by
  obtain ⟨kind, s, children⟩ := t
  cases kind <;> unfold exprOf at h <;> dsimp only at h <;> first | rfl | (repeat' split at h) <;> cases h


theorem functions_of_isLeaf {kind : Tree.Kind} {span : Span} {children : List Tree} (h : kind.isLeaf = true) :
    (Tree.node kind span children).functions = [] := by
  cases kind
  case identifier | integer | float | string | operator => simp [Tree.functions, Tree.Kind.isLeaf]
  all_goals cases h

theorem functions_of_kind {kind : Tree.Kind} (h : t.kind = kind) (hleaf : kind.isLeaf = true) :
    t.functions = [] := by
  obtain ⟨_, span, children⟩ := t
  cases h
  exact functions_of_isLeaf hleaf

theorem declOf_eq {span : Span} {children : List Tree}
    (h : (declOf source constant span children).Within faultless) :
    ∃ name value, children = [name, value] ∧ name.kind = .identifier ∧ (exprOf source value).Within faultless ∧
      ((∃ s params body, value = .node .lambda s [params, body] ∧
          exprOf source value = .lambda s (params.children.map (·.text source)) (bodyOf source body) ∧
          declOf source constant span children =
            .lambdaDecl span (name.text source) s (params.children.map (·.text source)) (bodyOf source body)) ∨
        (value.kind ≠ .lambda ∧
          declOf source constant span children = .decl span constant (name.text source) (exprOf source value))) := by
  unfold declOf at h ⊢
  split at h
  next name value =>
    split at h
    next => exact h.elim
    next text hname =>
      obtain ⟨hkind, rfl⟩ := nameOf?_eq_some hname
      refine ⟨name, value, rfl, hkind, ?_⟩
      split at h
      next s params body hvalue =>
        have hwithin : (exprOf source value).Within faultless := hvalue ▸ h.2
        refine ⟨hwithin, Or.inl ?_⟩
        obtain ⟨kind, s', children⟩ := value
        obtain rfl : kind = .lambda := kind_of_exprOf_lambda hvalue
        obtain ⟨params', body', rfl, heq⟩ := exprOf_lambda hwithin
        rw [hvalue] at heq
        cases heq
        exact ⟨s, params', body', rfl, hvalue, rfl⟩
      next hother =>
        refine ⟨h, Or.inr ⟨?_, rfl⟩⟩
        intro hlambda
        obtain ⟨kind, s', children⟩ := value
        obtain rfl : kind = .lambda := hlambda
        obtain ⟨params', body', _, heq⟩ := exprOf_lambda h
        exact hother _ _ _ heq
  next => exact h.elim

def Tree.Kind.declaration (constant : Bool) : Tree.Kind := if constant then .constDeclaration else .letDeclaration

theorem functions_decl {span : Span} {name value : Tree} (hname : name.kind = .identifier)
    (hvalue : value.kind ≠ .lambda) :
    (Tree.node (.declaration constant) span [name, value]).functions = value.functions := by
  have hleaf : name.functions = [] := functions_of_kind hname rfl
  obtain ⟨kind, s, children⟩ := value
  have hall : (Tree.node (.declaration constant) span [name, .node kind s children]).functions =
      Tree.functionsAll [name, .node kind s children] := by
    cases constant <;> cases kind <;> first | exact absurd rfl hvalue | simp [Tree.functions, Tree.Kind.declaration,
      Tree.Kind.isLeaf]
  rw [hall, Tree.functionsAll, Tree.functionsAll, Tree.functionsAll, hleaf, List.nil_append, List.append_nil]

theorem nested_of_expr (h : (exprOf source t).Within faultless) :
    t.nested = [] ∧ t.declaresValue = false := by
  obtain ⟨kind, span, children⟩ := t
  cases kind
  case block | letIn | ifStatement | elseIf | elseStatement | letDeclaration | constDeclaration => exact h.elim
  all_goals exact ⟨by simp [Tree.nested], rfl⟩

theorem declaresValue_of_block (h : Stmt.AllWithin faultless (blockOf source t)) :
    t.declaresValue = false := by
  obtain ⟨kind, span, children⟩ := t
  cases kind
  case letDeclaration | constDeclaration => exact h.1.elim
  all_goals rfl

theorem nestedAll_cons {rest : List Tree} (h : t.declaresValue = false) :
    Tree.nestedAll (t :: rest) = t.nested ++ Tree.nestedAll rest := by
  rw [Tree.nestedAll, h]
  exact congrArg (· ++ _) (List.append_nil _)

theorem inDeclOf_eq (h : (inDeclOf source t).Within faultless) : inDeclOf source t = stmtOf source t := by
  obtain ⟨kind, span, children⟩ := t
  cases kind
  case letDeclaration | constDeclaration => simp only [inDeclOf, stmtOf]
  all_goals exact h.elim

structure Agrees (source : List Char) (stmt : Stmt) (functions : List FunctionTree)
    (nested : List Tree) (isDecl : Bool) : Prop where
  functions : stmt.functions = functions.map (·.declared source)
  nested : ∀ {all : List String} {n : Node}, stmt.Becomes all n →
    List.Forall₂ (fun t n => (stmtOf source t).Becomes all n) nested n.nested
  isDecl : ∀ {all : List String} {n : Node}, stmt.Becomes all n → n.isDecl = isDecl

structure AllAgree (source : List Char) (statements : List Stmt) (functions : List FunctionTree)
    (nested : List Tree) : Prop where
  functions : Stmt.functionsAll statements = functions.map (·.declared source)
  nested : ∀ {all : List String} {ns : List Node}, Stmt.AllBecome all statements ns →
    List.Forall₂ (fun t n => (stmtOf source t).Becomes all n) nested (Node.nestedAll ns)

theorem AllAgree.nil : AllAgree source [] [] [] := by
  refine ⟨rfl, ?_⟩
  rintro all _ rfl
  exact .nil

theorem AllAgree.cons {rest : List Stmt} {functions : List FunctionTree} {nested : List Tree}
    (h : Agrees source (stmtOf source t) t.functions t.nested t.declaresValue)
    (hrest : AllAgree source rest functions nested) :
    AllAgree source (stmtOf source t :: rest) (t.functions ++ functions)
      (t.nested ++ (if t.declaresValue then [t] else []) ++ nested) := by
  refine ⟨?_, ?_⟩
  · rw [Stmt.functionsAll, h.functions, hrest.functions, List.map_append]
  · rintro all _ ⟨n, ns, hn, hns, rfl⟩
    rw [Node.nestedAll, h.isDecl hn]
    refine List.rel_append (List.rel_append (h.nested hn) ?_) (hrest.nested hns)
    split
    · exact .cons hn .nil
    · exact .nil

theorem declOf_agrees {span : Span} {name value : Tree}
    (h : (declOf source constant span [name, value]).Within faultless)
    (ih : (exprOf source value).Within faultless →
      (exprOf source value).functions = value.functions.map (·.declared source)) :
    Agrees source (declOf source constant span [name, value])
      (Tree.node (.declaration constant) span [name, value]).functions []
      (Tree.node (.declaration constant) span [name, value]).declaresValue := by
  obtain ⟨_, _, ⟨⟩, hname, hwithin, ⟨s, params, body, rfl, heq, hdecl⟩ | ⟨hkind, hdecl⟩⟩ := declOf_eq h
  · have hvalue := ih hwithin
    rw [heq, Expr.functions, Tree.functions, List.map_cons, List.cons.injEq] at hvalue
    rw [hdecl]
    refine ⟨?_, ?_, ?_⟩
    · rw [Stmt.functions, hvalue.2]
      cases constant <;> simp [Tree.functions, Tree.Kind.declaration, FunctionTree.declared]
    · rintro _ _ ⟨_, _, _, _, _, rfl⟩
      exact .nil
    · rintro _ _ ⟨_, _, _, _, _, rfl⟩
      cases constant <;> rfl
  · rw [hdecl]
    refine ⟨?_, ?_, ?_⟩
    · rw [Stmt.functions, ih hwithin, functions_decl hname hkind]
    · rintro _ _ ⟨_, _, _, rfl⟩
      exact .nil
    · rintro _ _ ⟨_, _, _, rfl⟩
      cases constant <;> exact (bne_iff_ne.mpr hkind).symm

theorem bodyOf_functions (h : (bodyOf source t).Within faultless)
    (hblock : Stmt.AllWithin faultless (blockOf source t) → Stmt.functionsAll (blockOf source t) = t.functions.map
      (·.declared source))
    (hvalue : (exprOf source t).Within faultless → (exprOf source t).functions = t.functions.map
      (·.declared source)) :
    (bodyOf source t).functions = t.functions.map (·.declared source) := by
  unfold bodyOf at h ⊢
  by_cases hkind : t.kind = .block
  · rw [if_pos hkind] at h ⊢
    exact hblock h
  · rw [if_neg hkind] at h ⊢
    exact hvalue h

end

mutual

theorem exprOf_functions : ∀ t : Tree, (exprOf source t).Within faultless →
    (exprOf source t).functions = t.functions.map (·.declared source)
  | .node .integer .., h | .node .float .., h => by
    rw [functions_of_isLeaf rfl]
    unfold exprOf at h ⊢
    dsimp only at h ⊢
    split
    · rfl
    · rfl
  | .node .string .., _ | .node .identifier .., _ => by
    rw [functions_of_isLeaf rfl]
    unfold exprOf
    rfl
  | .node .arithmetic span [left, op, right], h | .node .comparison span [left, op, right], h => by
    unfold exprOf at h ⊢
    dsimp only at h ⊢
    split at h
    next hop =>
      have hleaf : op.functions = [] := functions_of_kind hop rfl
      rw [if_pos hop, Expr.functions, exprOf_functions left h.2.1, exprOf_functions right h.2.2]
      simp [Tree.functions, Tree.functionsAll, Tree.Kind.isLeaf, hleaf]
    next => exact h.elim
  | .node .call span [name, .node argsKind argsSpan args], h => by
    unfold exprOf at h ⊢
    dsimp only at h ⊢
    split at h
    next => exact h.elim
    next text hname =>
      have hleaf : name.functions = [] := functions_of_kind (nameOf?_eq_some hname).1 rfl
      split at h
      next hargs =>
        rw [if_pos hargs, Expr.functions, exprsOf_functions args h]
        simp [Tree.functions, Tree.functionsAll, Tree.Kind.isLeaf, hleaf, hargs]
      next => exact h.elim
  | .node .listAccess span [name, index], h => by
    unfold exprOf at h ⊢
    dsimp only at h ⊢
    split at h
    next => exact h.elim
    next text hname =>
      have hleaf : name.functions = [] := functions_of_kind (nameOf?_eq_some hname).1 rfl
      rw [Expr.functions, exprOf_functions index h]
      simp [Tree.functions, Tree.functionsAll, Tree.Kind.isLeaf, hleaf]
  | .node .listLiteral span items, h => by
    unfold exprOf at h ⊢
    rw [Expr.functions, exprsOf_functions items h]
    simp [Tree.functions, Tree.Kind.isLeaf]
  | .node .lambda span [params, body], h => by
    obtain ⟨_, _, ⟨⟩, heq⟩ := exprOf_lambda h
    rw [heq] at h ⊢
    rw [Expr.functions, bodyOf_functions h (fun hb => (blockOf_agrees body hb).functions) (exprOf_functions body)]
    rfl
  | .node .arithmetic _ [], h | .node .arithmetic _ [_], h | .node .arithmetic _ [_, _], h
  | .node .arithmetic _ (_ :: _ :: _ :: _ :: _), h | .node .comparison _ [], h | .node .comparison _ [_], h
  | .node .comparison _ [_, _], h | .node .comparison _ (_ :: _ :: _ :: _ :: _), h | .node .call _ [], h
  | .node .call _ [_], h | .node .call _ (_ :: .node .. :: _ :: _), h | .node .listAccess _ [],
    h | .node .listAccess _ [_], h
  | .node .listAccess _ (_ :: _ :: _ :: _), h | .node .lambda _ [], h | .node .lambda _ [_], h
  | .node .lambda _ (_ :: _ :: _ :: _), h | .node .program .., h | .node .letDeclaration .., h
  | .node .constDeclaration .., h | .node .letIn .., h | .node .functionDeclaration .., h | .node .parameterList .., h
  | .node .ifStatement .., h | .node .elseIf .., h | .node .elseStatement .., h | .node .block .., h
  | .node .returnStatement .., h | .node .printStatement .., h | .node .expressionStatement .., h
  | .node .argumentList .., h | .node .operator .., h => h.elim

theorem exprsOf_functions : ∀ ts : List Tree, Expr.AllWithin faultless (exprsOf source ts) →
    Expr.functionsAll (exprsOf source ts) = (Tree.functionsAll ts).map (·.declared source)
  | [], _ => by
    unfold exprsOf
    rfl
  | t :: rest, h => by
    unfold exprsOf at h ⊢
    rw [Expr.functionsAll, exprOf_functions t h.1, exprsOf_functions rest h.2, Tree.functionsAll, List.map_append]

theorem blockOf_agrees : ∀ t : Tree, Stmt.AllWithin faultless (blockOf source t) →
    AllAgree source (blockOf source t) t.functions t.nested
  | .node kind span children, h => by
    by_cases hkind : kind = .block
    · subst hkind
      unfold blockOf at h ⊢
      have hall := stmtsOf_agree children h
      simpa [Tree.functions, Tree.Kind.isLeaf, Tree.nested] using hall
    · unfold blockOf at h
      split at h
      next heq => exact absurd (Tree.node.inj heq).1 hkind
      next => exact h.1.elim

theorem stmtsOf_agree : ∀ ts : List Tree, Stmt.AllWithin faultless (stmtsOf source ts) →
    AllAgree source (stmtsOf source ts) (Tree.functionsAll ts) (Tree.nestedAll ts)
  | [], _ => by
    unfold stmtsOf
    exact .nil
  | t :: rest, h => by
    unfold stmtsOf at h ⊢
    exact .cons (stmtOf_agrees t h.1) (stmtsOf_agree rest h.2)

theorem stmtOf_agrees : ∀ t : Tree, (stmtOf source t).Within faultless →
    Agrees source (stmtOf source t) t.functions t.nested t.declaresValue
  | .node .letDeclaration span [name, value], h => by
    unfold stmtOf at h ⊢
    exact declOf_agrees h (exprOf_functions value)
  | .node .constDeclaration span [name, value], h => by
    unfold stmtOf at h ⊢
    exact declOf_agrees h (exprOf_functions value)
  | .node .letIn span children, h => by
    unfold stmtOf at h ⊢
    dsimp only at h ⊢
    split at h
    next decls bodySpan body hin =>
      obtain ⟨fs, ds, gs, es, hdecls, hbody, hfunctions, hnested⟩ := letInOf_agree children hin h.1 h.2
      refine ⟨?_, ?_, ?_⟩
      · rw [Stmt.functions, hdecls.functions, hbody.functions, ← List.map_append, ← hfunctions]
        simp [Tree.functions, Tree.Kind.isLeaf]
      · rintro _ _ ⟨_, _, _, _, hds, hss, rfl⟩
        rw [Tree.nested, hnested]
        exact List.rel_append (hdecls.nested hds) (hbody.nested hss)
      · rintro _ _ ⟨_, _, _, _, _, _, rfl⟩
        rfl
    next => exact h.elim
  | .node .functionDeclaration span [name, params, .node kind s statements], h => by
    by_cases hkind : kind = .block
    · subst hkind
      unfold stmtOf funOf at h ⊢
      dsimp only at h ⊢
      split at h
      next => exact h.elim
      next text hname =>
        split at h
        next => exact h.elim
        next texts hparams =>
          obtain ⟨_, rfl⟩ := nameOf?_eq_some hname
          obtain rfl := paramsOf_eq_ok hparams
          refine ⟨?_, ?_, ?_⟩
          · rw [Stmt.functions, Body.functions, (stmtsOf_agree statements h.2).functions]
            simp [Tree.functions, Tree.Kind.isLeaf, FunctionTree.declared, bodyOf, blockOf, Tree.kind, Tree.span]
          · rintro _ _ ⟨_, _, _, _, _, rfl⟩
            exact .nil
          · rintro _ _ ⟨_, _, _, _, _, rfl⟩
            rfl
    · cases kind <;> first | exact absurd rfl hkind | exact h.elim
  | .node .ifStatement span children, h => by
    unfold stmtOf at h ⊢
    have hif := ifOf_agrees span children h
    simpa [Tree.functions, Tree.Kind.isLeaf, Tree.nested, Tree.declaresValue] using hif
  | .node .block span children, h => by
    unfold stmtOf at h ⊢
    have hall := stmtsOf_agree children h
    refine ⟨?_, ?_, ?_⟩
    · rw [Stmt.functions, hall.functions]
      simp [Tree.functions, Tree.Kind.isLeaf]
    · rintro _ _ ⟨_, _, hss, rfl⟩
      exact hall.nested hss
    · rintro _ _ ⟨_, _, _, rfl⟩
      rfl
  | .node .returnStatement span [value], h => by
    unfold stmtOf at h ⊢
    refine ⟨?_, ?_, ?_⟩
    · rw [Stmt.functions, exprOf_functions value h]
      simp [Tree.functions, Tree.functionsAll, Tree.Kind.isLeaf]
    · rintro _ _ ⟨_, _, _, rfl⟩
      exact .nil
    · rintro _ _ ⟨_, _, _, rfl⟩
      rfl
  | .node .expressionStatement span [value], h => by
    unfold stmtOf at h ⊢
    refine ⟨?_, ?_, ?_⟩
    · rw [Stmt.functions, exprOf_functions value h]
      simp [Tree.functions, Tree.functionsAll, Tree.Kind.isLeaf]
    · intro all n hn
      rw [(Expr.nested_of_becomes hn).1]
      exact .nil
    · intro all n hn
      exact (Expr.nested_of_becomes hn).2
  | .node .printStatement span [.node kind s args], h => by
    by_cases hkind : kind = .argumentList
    · subst hkind
      unfold stmtOf at h ⊢
      refine ⟨?_, ?_, ?_⟩
      · rw [Stmt.functions, exprsOf_functions args h]
        simp [Tree.functions, Tree.functionsAll, Tree.Kind.isLeaf]
      · rintro _ _ ⟨_, _, _, rfl⟩
        exact .nil
      · rintro _ _ ⟨_, _, _, rfl⟩
        rfl
    · unfold stmtOf at h
      dsimp only at h
      split at h
      next heq => cases heq; exact absurd rfl hkind
      next => exact h.elim
      next => exact h.elim
  | .node .functionDeclaration _ (_ :: _ :: .node kind _ _ :: _ :: _), h => by
    cases kind <;> exact h.elim
  | .node .printStatement _ (.node kind _ _ :: _ :: _), h => by
    cases kind <;> exact h.elim
  | .node .letDeclaration _ [], h | .node .letDeclaration _ [_], h | .node .letDeclaration _ (_ :: _ :: _ :: _), h
  | .node .constDeclaration _ [], h | .node .constDeclaration _ [_], h | .node .constDeclaration _ (_ :: _ :: _ :: _), h
  | .node .functionDeclaration _ [], h | .node .functionDeclaration _ [_], h | .node .functionDeclaration _ [_, _], h
  | .node .returnStatement _ [], h | .node .returnStatement _ (_ :: _ :: _), h | .node .expressionStatement _ [], h
  | .node .expressionStatement _ (_ :: _ :: _), h | .node .printStatement _ [], h | .node .program .., h
  | .node .parameterList .., h | .node .lambda .., h | .node .elseIf .., h | .node .elseStatement .., h
  | .node .comparison .., h | .node .arithmetic .., h | .node .call .., h | .node .argumentList .., h
  | .node .listAccess .., h | .node .listLiteral .., h | .node .identifier .., h | .node .integer .., h
  | .node .float .., h | .node .string .., h | .node .operator .., h => h.elim

theorem letInOf_agree : ∀ (ts : List Tree) {decls body : List Stmt} {span : Span},
    letInOf source ts = some (decls, span, body) → Stmt.AllWithin faultless decls → Stmt.AllWithin faultless body →
    ∃ fs ds gs es, AllAgree source decls fs ds ∧ AllAgree source body gs es ∧
      Tree.functionsAll ts = fs ++ gs ∧ Tree.nestedAll ts = ds ++ es
  | [], _, _, _, h, _, _ => by cases h
  | [t], _, _, _, h, _, hbody => by
    cases h
    refine ⟨[], [], t.functions, t.nested, .nil, blockOf_agrees t hbody, ?_, ?_⟩
    · rw [Tree.functionsAll, Tree.functionsAll, List.append_nil]
      rfl
    · rw [nestedAll_cons (declaresValue_of_block hbody), Tree.nestedAll, List.append_nil]
      rfl
  | t :: t' :: rest, _, _, _, h, hdecls, hbody => by
    rw [letInOf] at h
    · obtain ⟨⟨decls, span, body⟩, hrest, heq⟩ := Option.map_eq_some_iff.mp h
      cases heq
      obtain ⟨fs, ds, gs, es, hfs, hgs, hfunctions, hnested⟩ := letInOf_agree (t' :: rest) hrest hdecls.2 hbody
      have ht : inDeclOf source t = stmtOf source t := inDeclOf_eq hdecls.1
      have hcons := AllAgree.cons (stmtOf_agrees t (ht ▸ hdecls.1)) hfs
      rw [← ht] at hcons
      refine ⟨_, _, gs, es, hcons, hgs, ?_, ?_⟩
      · rw [Tree.functionsAll, hfunctions, List.append_assoc]
      · rw [Tree.nestedAll, hnested]
        simp only [List.append_assoc]
    · nofun

theorem ifOf_agrees (span : Span) : ∀ ts : List Tree, (ifOf source span ts).Within faultless →
    Agrees source (ifOf source span ts) (Tree.functionsAll ts) (Tree.nestedAll ts) false
  | [test, body], h => by
    unfold ifOf at h ⊢
    have hbody := blockOf_agrees body h.2
    refine ⟨?_, ?_, ?_⟩
    · rw [Stmt.functions, exprOf_functions test h.1, hbody.functions]
      simp [Tree.functionsAll]
    · rintro _ _ ⟨_, _, _, _, ht, hss, rfl⟩
      rw [nestedAll_cons (nested_of_expr h.1).2, (nested_of_expr h.1).1, nestedAll_cons (declaresValue_of_block h.2)]
      exact (List.append_nil body.nested).symm ▸ hbody.nested hss
    · rintro _ _ ⟨_, _, _, _, _, _, rfl⟩
      rfl
  | [test, body, .node .elseIf s children], h => by
    unfold ifOf at h ⊢
    have hbody := blockOf_agrees body h.2.1
    have hlink := ifOf_agrees s children h.2.2.2
    refine ⟨?_, ?_, ?_⟩
    · rw [Stmt.functions, exprOf_functions test h.1, hbody.functions, hlink.functions]
      simp [Tree.functions, Tree.functionsAll, Tree.Kind.isLeaf]
    · rintro _ _ ⟨_, _, _, _, _, _, hss, hl, rfl⟩
      rw [nestedAll_cons (nested_of_expr h.1).2, (nested_of_expr h.1).1, nestedAll_cons (declaresValue_of_block h.2.1),
        nestedAll_cons rfl, Tree.nested, Tree.nestedAll, List.append_nil]
      exact List.rel_append (hbody.nested hss) (hlink.nested hl)
    · rintro _ _ ⟨_, _, _, _, _, _, _, _, rfl⟩
      rfl
  | [test, body, .node .elseStatement s [other]], h => by
    unfold ifOf at h ⊢
    have hbody := blockOf_agrees body h.2.1
    have hother := blockOf_agrees other h.2.2
    refine ⟨?_, ?_, ?_⟩
    · rw [Stmt.functions, exprOf_functions test h.1, hbody.functions, hother.functions]
      simp [Tree.functions, Tree.functionsAll, Tree.Kind.isLeaf]
    · rintro _ _ ⟨_, _, _, _, _, _, _, hss, hos, rfl⟩
      rw [nestedAll_cons (nested_of_expr h.1).2, (nested_of_expr h.1).1, nestedAll_cons (declaresValue_of_block h.2.1),
        nestedAll_cons rfl, Tree.nested, nestedAll_cons (declaresValue_of_block h.2.2), Tree.nestedAll, List.append_nil,
        List.append_nil]
      exact List.rel_append (hbody.nested hss) (hother.nested hos)
    · rintro _ _ ⟨_, _, _, _, _, _, _, _, _, rfl⟩
      rfl
  | [_, _, .node .elseStatement _ []], h | [_, _, .node .elseStatement _ (_ :: _ :: _)], h
  | [_, _, .node .program ..], h | [_, _, .node .letDeclaration ..], h | [_, _, .node .constDeclaration ..], h
  | [_, _, .node .letIn ..], h | [_, _, .node .functionDeclaration ..], h | [_, _, .node .parameterList ..], h
  | [_, _, .node .lambda ..], h | [_, _, .node .ifStatement ..], h | [_, _, .node .block ..], h
  | [_, _, .node .returnStatement ..], h | [_, _, .node .printStatement ..], h
  | [_, _, .node .expressionStatement ..], h | [_, _, .node .comparison ..], h | [_, _, .node .arithmetic ..], h
  | [_, _, .node .call ..], h | [_, _, .node .argumentList ..], h | [_, _, .node .listAccess ..], h
  | [_, _, .node .listLiteral ..], h | [_, _, .node .identifier ..], h | [_, _, .node .integer ..], h
  | [_, _, .node .float ..], h | [_, _, .node .string ..], h | [_, _, .node .operator ..], h => h.2.2.1.elim
  | [], h | [_], h => h.elim
  | _ :: _ :: .node kind _ children :: _ :: _, h => by
    cases kind
    case elseStatement => rcases children with _ | ⟨_, _ | _⟩ <;> exact h.elim
    all_goals exact h.elim

end

end

/-! ## The table of a tree -/

section
variable (all : List String) (source : List Char)

def Tree.Becomes (t : Tree) (n : Node) : Prop := (stmtOf source t).Becomes all n

/-- One node for each statement, in order, and before it the entries of the declarations that are nested in it: each
is the node of its declaration, and stands inside. -/
inductive Tree.LaidOut : List Tree → List Node → Prop
  | nil : Tree.LaidOut [] []
  | cons {t : Tree} {ts : List Tree} {n : Node} {sequence : List Node} (hnode : t.Becomes all source n)
      (hnested : List.Forall₂ (Tree.Becomes all source) t.nested n.nested) (hrest : Tree.LaidOut ts sequence) :
      Tree.LaidOut (t :: ts) (n.nested ++ n :: sequence)

structure FunctionTree.Recorded (f : FunctionTree) (r : FunctionRecord) : Prop where
  name : match f.name with
    | some t => r.name = t.text source
    | none => ∃ id : NodeId, r.name = s!"lambda#{id}"
  params : r.params = f.params.children.map (·.text source)
  sequence : if f.body.kind = .block then Tree.LaidOut all source f.body.children r.sequence
    else ∃ id v, (exprOf source f.body).Becomes all v ∧ r.sequence = [.ret ⟨id, f.body.span⟩ v]

end

section
variable {all : List String} {source : List Char}

theorem laidOut_of_allBecome : ∀ {ts : List Tree} {ns : List Node}, Stmt.AllWithin faultless (stmtsOf source ts) →
    Stmt.AllBecome all (stmtsOf source ts) ns → Tree.LaidOut all source ts (Node.entries ns)
  | [], _, _, h => by
    unfold stmtsOf at h
    obtain rfl : _ = [] := h
    exact .nil
  | t :: ts, _, hw, h => by
    unfold stmtsOf at hw h
    obtain ⟨n, ns, hn, hns, rfl⟩ := h
    have hlaid := Tree.LaidOut.cons hn ((stmtOf_agrees t hw.1).nested hn) (laidOut_of_allBecome hw.2 hns)
    simpa [Node.entries] using hlaid

theorem recorded_of_declared {f : FunctionTree} {r : FunctionRecord} (hw : (f.declared source).body.Within faultless)
    (h : (f.declared source).Recorded all r) : f.Recorded all source r := by
  obtain ⟨name, params, kind, span, children⟩ := f
  refine ⟨?_, h.params, ?_⟩
  · cases name with
    | some t =>
      rcases h.name with hname | ⟨hname, _⟩
      · exact (Option.some.inj hname).symm
      · cases hname
    | none =>
      rcases h.name with hname | ⟨_, hname⟩
      · cases hname
      · exact hname
  · have hlaid := h.sequence
    unfold FunctionTree.declared bodyOf at hw hlaid
    by_cases hkind : kind = .block
    · subst hkind
      obtain ⟨ns, hns, hsequence⟩ := hlaid
      rw [hsequence]
      exact laidOut_of_allBecome hw hns
    · have hvalue : (Tree.node kind span children).kind ≠ .block := hkind
      dsimp only at hlaid ⊢
      rw [if_neg hvalue] at hlaid ⊢
      exact hlaid

/-- Whatever tree is loaded, if no two of its functions have the same name and no such name has a `#` in it: nothing is
lost, doubled or out of order. Every function has the nodes of its own statements and of the declarations nested in
them, and the functions come in the order of the tree. -/
theorem FunctionTable.laidOut_of_ofTree {tree : Tree} {table : FunctionTable}
    (h : (FunctionTable.ofProgram (.ofTree source tree)).result = .ok table)
    (hdistinct : (tree.functionNames source).Nodup)
    (hplain : ∀ name ∈ tree.functionNames source, '#' ∉ name.toList) :
    ∃ main rest, table.records = main :: rest ∧ main.name = mainName ∧ main.params = [] ∧
      Tree.LaidOut table.names source tree.children main.sequence ∧
      List.Forall₂ (FunctionTree.Recorded table.names source) tree.functions rest := by
  have hw := faultless_of_ofProgram (ofTree_within tree) h
  obtain ⟨kind, span, children⟩ := tree
  by_cases hkind : kind = .program
  · subst hkind
    have hagree := (stmtsOf_agree children hw).functions
    have hfunctions : (Tree.node .program span children).functions = Tree.functionsAll children := by
      simp [Tree.functions, Tree.Kind.isLeaf]
    have hnames : Declared.names (Stmt.functionsAll (stmtsOf source children)) =
        (Tree.node .program span children).functionNames source := by
      rw [hagree, Declared.names, List.filterMap_map, Tree.functionNames, hfunctions]
      rfl
    obtain ⟨nodes, rest, hrecords, hnodes, hrest⟩ :=
      recorded_of_ofProgram h (hnames ▸ hdistinct) (hnames ▸ hplain)
    refine ⟨_, rest, hrecords, rfl, rfl, laidOut_of_allBecome hw hnodes, ?_⟩
    rw [hfunctions]
    have hbodies : ∀ f ∈ Tree.functionsAll children, (f.declared source).body.Within faultless := by
      intro f hf
      apply Stmt.within_of_mem_functionsAll _ hw
      rw [Program.ofTree, hagree]
      exact List.mem_map_of_mem hf
    rw [Program.ofTree, hagree, List.forall₂_map_left_iff] at hrest
    refine ((List.forall₂_and_left _ _).mpr ⟨hbodies, hrest⟩).imp ?_
    intro f r hr
    exact recorded_of_declared hr.1 hr.2
  · unfold Program.ofTree at hw
    split at hw
    next heq => exact absurd (Tree.node.inj heq).1 hkind
    next => exact hw.1.elim

def layeredSource : List Char :=
  "fun f(x) { if (x > 0) { let b = 1 print((z) => { let { let c = z } in { print(c) } }) } return x }".toList

theorem FunctionTable.laidOut_of_layeredSource : ∃ tree table, Tree.parse layeredSource = .ok tree ∧
    (FunctionTable.ofProgram (.ofTree layeredSource tree)).result = .ok table ∧
    table.records.map (fun r => (r.name, r.sequence.length)) = [("main", 1), ("f", 3), ("lambda#5", 2)] ∧
    ∃ main rest, table.records = main :: rest ∧ main.name = mainName ∧ main.params = [] ∧
      Tree.LaidOut table.names layeredSource tree.children main.sequence ∧
      List.Forall₂ (FunctionTree.Recorded table.names layeredSource) tree.functions rest := by
  obtain ⟨tree, hparse, hp⟩ := Tree.exists_of_parse layeredSource (p := fun tree =>
    decide (tree.functionNames layeredSource).Nodup &&
      (tree.functionNames layeredSource).all (fun name => decide ('#' ∉ name.toList)) &&
      (FunctionTable.ofProgram (.ofTree layeredSource tree)).result.toOption.any fun table =>
        table.records.map (fun r => (r.name, r.sequence.length)) =
          [("main", 1), ("f", 3), ("lambda#5", 2)]) (by decide +kernel)
  simp only [Bool.and_eq_true, decide_eq_true_eq, List.all_eq_true] at hp
  obtain ⟨⟨hdistinct, hplain⟩, htable⟩ := hp
  cases hload : (FunctionTable.ofProgram (.ofTree layeredSource tree)).result with
  | error e =>
    rw [hload] at htable
    cases htable
  | ok table =>
    rw [hload] at htable
    exact ⟨tree, table, hparse, hload, of_decide_eq_true htable, laidOut_of_ofTree hload hdistinct hplain⟩

end

end Bies
