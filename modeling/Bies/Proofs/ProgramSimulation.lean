import Bies.Proofs.LoadingSimulation
import Bies.Proofs.Printing

/-!
# Reading two trees side by side

Two trees, each with its own source, are read as programs of one shape if they have the same kinds of nodes and
the same texts. In any place the trees may also be different numbers, as long as what they are read as may stand
for each other.
-/

namespace Bies

open List

def Tree.IsNumber (t : Tree) : Prop := t.kind = .integer ∨ t.kind = .arithmetic

/-- Nodes of one kind, with the same text if they are tokens. -/
inductive Tree.Paired (source source' : List Char) (names : String → Prop) (trees : Tree → Tree → Prop) :
    Tree → Tree → Prop where
  | node {kind span span' ts ts'} :
    (kind.isLeaf = true → span.text source = span'.text source') →
      (kind = .identifier → names (span.text source)) →
    Forall₂ trees ts ts' → Paired source source' names trees (.node kind span ts) (.node kind span' ts')

namespace Program

def declared (constant : Bool) (span : Span) (name : String) : Expr → Stmt
  | .lambda s params body => .lambdaDecl span name s params body
  | value => .decl span constant name value

structure Simulation (source source' : List Char) where
  trees : Tree → Tree → Prop
  spans : Span → Span → Prop
  /-- The names that may be used. -/
  names : String → Prop
  exprs : Expr → Expr → Prop
  bodies : Body → Body → Prop
  stmts : Stmt → Stmt → Prop
  tree : ∀ {t t' : Tree}, trees t t' → t.Paired source source' names trees t' ∨
    t.IsNumber ∧ t'.IsNumber ∧ exprs (exprOf source t) (exprOf source' t')
  span : ∀ {t t' : Tree}, trees t t' → spans t.span t'.span
  expr : ∀ {e e' : Expr}, e.Paired spans names exprs bodies e' → exprs e e'
  body : ∀ {b b' : Body}, b.Paired spans exprs stmts b' → bodies b b'
  stmt : ∀ {s s' : Stmt}, s.Paired spans names exprs bodies stmts s' → stmts s s'
  declared : ∀ {constant : Bool} {span span' : Span} {name : String} {e e' : Expr}, spans span span' → names name →
    exprs e e' → stmts (declared constant span name e) (declared constant span' name e')

theorem letInOf_cons {source : List Char} (decl t : Tree) (ts : List Tree) : letInOf source (decl :: t :: ts) =
    (letInOf source (t :: ts)).map fun x => (inDeclOf source decl :: x.1, x.2) := by
  rw [letInOf]
  simp

theorem declOf_pair {source : List Char} {constant : Bool} {span : Span} (name value : Tree) :
    declOf source constant span [name, value] = match nameOf? source name with
      | none => .malformed name.span (.notIdentifier (if constant then .constDeclaration else .letDeclaration))
      | some name => declared constant span name (exprOf source value) := by
  rw [declOf]
  cases nameOf? source name with
  | none => rfl
  | some name => cases exprOf source value <;> rfl

section
variable {source : List Char} {kind : Tree.Kind} {span s : Span} {ts us : List Tree}

theorem stmtOf_number (h : (Tree.node kind span ts).IsNumber) :
    stmtOf source (.node kind span ts) = .malformed span .notStatement := by
  obtain rfl | rfl : kind = .integer ∨ kind = .arithmetic := h <;> rfl

theorem inDeclOf_number (h : (Tree.node kind span ts).IsNumber) :
    inDeclOf source (.node kind span ts) = .malformed span .notDeclaration := by
  obtain rfl | rfl : kind = .integer ∨ kind = .arithmetic := h <;> rfl

theorem ofTree_number (h : (Tree.node kind span ts).IsNumber) :
    ofTree source (.node kind span ts) = [.malformed span .notProgram] := by
  obtain rfl | rfl : kind = .integer ∨ kind = .arithmetic := h <;> rfl

theorem ifOf_number {test body : Tree} (h : (Tree.node kind s ts).IsNumber) :
    ifOf source span [test, body,
      .node kind s ts] = .ifElse span (exprOf source test) body.span (blockOf source body) s
      [.malformed s .notElse] := by
  obtain rfl | rfl : kind = .integer ∨ kind = .arithmetic := h <;> rfl

theorem stmtOf_print_ne (h : kind ≠ .argumentList) :
    stmtOf source (.node .printStatement span [.node kind s ts]) = .malformed s .notArguments := by
  cases kind <;> first | exact absurd rfl h | rfl

theorem stmtOf_print_long (t u : Tree) :
    stmtOf source (.node .printStatement span (t :: u :: ts)) = .malformed span .printShape := by
  unfold stmtOf
  simp

theorem funOf_long (t u v x : Tree) : funOf source span (t :: u :: v :: x :: ts) = .malformed span .functionShape := by
  unfold funOf
  simp

theorem ifOf_long (t u v x : Tree) : ifOf source span (t :: u :: v :: x :: ts) = .malformed span .ifShape := by
  unfold ifOf
  simp

theorem funOf_ne {name params : Tree} (h : kind ≠ .block) :
    funOf source span [name, params, .node kind s ts] = .malformed s .functionBodyShape := by
  cases kind <;> first | exact absurd rfl h | rfl

theorem blockOf_ne (h : kind ≠ .block) : blockOf source (.node kind span ts) = [.malformed span .notBlock] := by
  cases kind <;> first | exact absurd rfl h | rfl

end

namespace Simulation

variable {source source' : List Char} (S : Simulation source source') {t t' : Tree}

theorem kind_eq_iff (h : S.trees t t') {kind : Tree.Kind} (hint : kind ≠ .integer) (harith : kind ≠ .arithmetic) :
    t.kind = kind ↔ t'.kind = kind := by
  obtain ⟨⟨⟩⟩ | ⟨hnumber, hnumber', -⟩ := S.tree h
  · exact Iff.rfl
  · refine iff_of_false ?_ ?_
    · rintro rfl
      exact hnumber.elim hint harith
    · rintro rfl
      exact hnumber'.elim hint harith

theorem children (h : S.trees t t') {kind : Tree.Kind} (hkind : t.kind = kind) (hint : kind ≠ .integer)
    (harith : kind ≠ .arithmetic) : Forall₂ S.trees t.children t'.children := by
  obtain ⟨⟨-, -, hts⟩⟩ | ⟨hnumber, -⟩ := S.tree h
  · exact hts
  · rw [Tree.IsNumber, hkind] at hnumber
    exact absurd hnumber (not_or_intro hint harith)

theorem text_eq (h : S.trees t t') (htoken : t.kind.isLeaf = true) (hint : t.kind ≠ .integer) :
    t.text source = t'.text source' := by
  obtain ⟨⟨htext, -, -⟩⟩ | ⟨hnumber, -⟩ := S.tree h
  · exact htext htoken
  · obtain hnumber | hnumber := hnumber
    · exact absurd hnumber hint
    · rw [hnumber] at htoken
      cases htoken

theorem nameOf? (h : S.trees t t') : (nameOf? source t = none ∧ nameOf? source' t' = none) ∨
    ∃ name, S.names name ∧ nameOf? source t = some name ∧ nameOf? source' t' = some name := by
  have hkind : t.kind = .identifier ↔ t'.kind = .identifier := S.kind_eq_iff h (by decide) (by decide)
  unfold Program.nameOf?
  by_cases hident : t.kind = .identifier
  · rw [if_pos hident, if_pos (hkind.mp hident)]
    obtain ⟨⟨htext, hname, -⟩⟩ | ⟨hnumber, -⟩ := S.tree h
    · obtain rfl : _ = Tree.Kind.identifier := hident
      exact .inr ⟨_, hname rfl, rfl, congrArg some (htext rfl).symm⟩
    · rw [Tree.IsNumber, hident] at hnumber
      exact absurd hnumber (by decide)
  · rw [if_neg hident, if_neg (mt hkind.mpr hident)]
    exact .inl ⟨rfl, rfl⟩

theorem paramsOf (h : S.trees t t') :
    (∃ names, (∀ x ∈ names, S.names x) ∧ paramsOf source t = .ok names ∧ paramsOf source' t' = .ok names) ∨
      ∃ span span' fault, S.spans span span' ∧ paramsOf source t = .error (span, fault) ∧
        paramsOf source' t' = .error (span', fault) := by
  have hkind : t.kind = .parameterList ↔ t'.kind = .parameterList := S.kind_eq_iff h (by decide) (by decide)
  unfold Program.paramsOf
  by_cases hparams : t.kind = .parameterList
  · rw [if_pos hparams, if_pos (hkind.mp hparams)]
    have hts := S.children h hparams (by decide) (by decide)
    clear hkind hparams
    generalize t.children = ts at hts
    generalize t'.children = ts' at hts
    induction hts with
    | nil => exact .inl ⟨[], fun _ hx => absurd hx List.not_mem_nil, rfl, rfl⟩
    | @cons p p' ps ps' hp _ ih =>
      rw [List.mapM_cons, List.mapM_cons]
      obtain ⟨hx, hy⟩ | ⟨name, hname, hx, hy⟩ := S.nameOf? hp <;> rw [hx, hy]
      · exact .inr ⟨_, _, _, S.span hp, rfl, rfl⟩
      · obtain ⟨names, hnames, hps, hps'⟩ | ⟨span, span', fault, hspans, hps, hps'⟩ := ih <;> rw [hps, hps']
        · exact .inl ⟨name :: names, List.forall_mem_cons.mpr ⟨hname, hnames⟩, rfl, rfl⟩
        · exact .inr ⟨span, span', fault, hspans, rfl, rfl⟩
  · rw [if_neg hparams, if_neg (mt hkind.mpr hparams)]
    exact .inr ⟨_, _, _, S.span h, rfl, rfl⟩

-- The induction is on the first tree. The second has its shape, so both are read by the same case.
mutual

theorem exprOf : ∀ {t t' : Tree}, S.trees t t' → S.exprs (exprOf source t) (exprOf source' t')
  | .node kind span ts, t', h => by
    obtain ⟨htext, hname, hts⟩ | ⟨-, -, hexprs⟩ := S.tree h
    case inr => exact hexprs
    rename_i span' ts'
    have hspan : S.spans span span' := S.span h
    clear h
    cases kind
    case integer =>
      rw [Program.exprOf, Program.exprOf, htext rfl]
      cases readInt? (span'.text source').toList with
      | none => exact S.expr (.malformed hspan)
      | some n => exact S.expr (.int hspan)
    case float =>
      rw [Program.exprOf, Program.exprOf, htext rfl]
      cases readFloat? (span'.text source').toList with
      | none => exact S.expr (.malformed hspan)
      | some x => exact S.expr (.float hspan)
    case string =>
      rw [Program.exprOf, Program.exprOf, htext rfl]
      exact S.expr (.str hspan)
    case identifier =>
      rw [Program.exprOf, Program.exprOf, ← htext rfl]
      exact S.expr (.ident hspan (hname rfl))
    case listLiteral =>
      rw [Program.exprOf, Program.exprOf]
      exact S.expr (.list hspan (exprsOf hts))
    case arithmetic | comparison =>
      match ts, ts', hts with
      | [left, op, right], [left', op', right'], .cons hl (.cons hop (.cons hr .nil)) =>
        have hkind : op.kind = .operator ↔ op'.kind = .operator := S.kind_eq_iff hop (by decide) (by decide)
        rw [Program.exprOf, Program.exprOf]
        by_cases hoperator : op.kind = .operator
        · rw [if_pos hoperator, if_pos (hkind.mp hoperator), S.text_eq hop (by rw [hoperator]; rfl)
            (by rw [hoperator]; decide)]
          first
            | exact S.expr (.arithmetic hspan (exprOf hl) (exprOf hr))
            | exact S.expr (.comparison hspan (exprOf hl) (exprOf hr))
        · rw [if_neg hoperator, if_neg (mt hkind.mpr hoperator)]
          exact S.expr (.malformed hspan)
      | [], [], _ | [_], [_], _ | [_, _], [_, _], _ | _ :: _ :: _ :: _ :: _, _ :: _ :: _ :: _ :: _, _ =>
        unfold Program.exprOf
        exact S.expr (.malformed hspan)
    case call =>
      match ts, ts', hts with
      | [name, .node kind span args], [name', .node kind' span' args'], .cons hcallee (.cons hargs .nil) =>
        have hkind : kind = .argumentList ↔ kind' = .argumentList := S.kind_eq_iff hargs (by decide) (by decide)
        rw [Program.exprOf, Program.exprOf]
        obtain ⟨hx, hy⟩ | ⟨name, hname, hx, hy⟩ := S.nameOf? hcallee <;> rw [hx, hy]
        · exact S.expr (.malformed (S.span hcallee))
        · dsimp only
          by_cases hlist : kind = .argumentList
          · rw [if_pos hlist, if_pos (hkind.mp hlist)]
            exact S.expr (.call hspan hname (exprsOf (S.children hargs hlist (by decide) (by decide))))
          · rw [if_neg hlist, if_neg (mt hkind.mpr hlist)]
            exact S.expr (.malformed (S.span hargs))
      | [], [], _ | [_], [_], _ | _ :: .node .. :: _ :: _, _ :: .node .. :: _ :: _, _ =>
        unfold Program.exprOf
        exact S.expr (.malformed hspan)
    case listAccess =>
      match ts, ts', hts with
      | [name, index], [name', index'], .cons hlist (.cons hindex .nil) =>
        rw [Program.exprOf, Program.exprOf]
        obtain ⟨hx, hy⟩ | ⟨name, hname, hx, hy⟩ := S.nameOf? hlist <;> rw [hx, hy]
        · exact S.expr (.malformed (S.span hlist))
        · exact S.expr (.access hspan hname (exprOf hindex))
      | [], [], _ | [_], [_], _ | _ :: _ :: _ :: _, _ :: _ :: _ :: _, _ =>
        unfold Program.exprOf
        exact S.expr (.malformed hspan)
    case lambda =>
      match ts, ts', hts with
      | [params, body], [params', body'], .cons hparams (.cons hbody .nil) =>
        have hkind : body.kind = .block ↔ body'.kind = .block := S.kind_eq_iff hbody (by decide) (by decide)
        rw [Program.exprOf, Program.exprOf]
        obtain ⟨names, hnames, hx, hy⟩ | ⟨_, _, _, hparam, hx, hy⟩ := S.paramsOf hparams <;> rw [hx, hy]
        · dsimp only
          by_cases hblock : body.kind = .block
          · rw [if_pos hblock, if_pos (hkind.mp hblock)]
            exact S.expr (.lambda hspan hnames (S.body (.block (S.span hbody) (blockOf hbody))))
          · rw [if_neg hblock, if_neg (mt hkind.mpr hblock)]
            exact S.expr (.lambda hspan hnames (S.body (.value (S.span hbody) (exprOf hbody))))
        · exact S.expr (.malformed hparam)
      | [], [], _ | [_], [_], _ | _ :: _ :: _ :: _, _ :: _ :: _ :: _, _ =>
        unfold Program.exprOf
        exact S.expr (.malformed hspan)
    all_goals
      unfold Program.exprOf
      exact S.expr (.malformed hspan)
termination_by structural t => t

theorem exprsOf :
    ∀ {ts ts' : List Tree}, Forall₂ S.trees ts ts' → Forall₂ S.exprs (exprsOf source ts) (exprsOf source' ts')
  | [], _, .nil => by
    rw [Program.exprsOf, Program.exprsOf]
    exact .nil
  | t :: ts, _, .cons ht hts => by
    rw [Program.exprsOf, Program.exprsOf]
    exact .cons (exprOf ht) (exprsOf hts)
termination_by structural t => t

theorem blockOf : ∀ {t t' : Tree}, S.trees t t' → Forall₂ S.stmts (blockOf source t) (blockOf source' t')
  | .node kind span ts, .node kind' span' ts', h => by
    have hkind : kind = .block ↔ kind' = .block := S.kind_eq_iff h (by decide) (by decide)
    by_cases hblock : kind = .block
    · have hts : Forall₂ S.trees ts ts' := S.children h hblock (by decide) (by decide)
      rw [hblock, hkind.mp hblock, Program.blockOf, Program.blockOf]
      exact stmtsOf hts
    · rw [blockOf_ne hblock, blockOf_ne (mt hkind.mpr hblock)]
      exact .cons (S.stmt (.malformed (S.span h))) .nil
termination_by structural t => t

theorem stmtsOf :
    ∀ {ts ts' : List Tree}, Forall₂ S.trees ts ts' → Forall₂ S.stmts (stmtsOf source ts) (stmtsOf source' ts')
  | [], _, .nil => by
    rw [Program.stmtsOf, Program.stmtsOf]
    exact .nil
  | t :: ts, _, .cons ht hts => by
    rw [Program.stmtsOf, Program.stmtsOf]
    exact .cons (stmtOf ht) (stmtsOf hts)
termination_by structural t => t

theorem stmtOf : ∀ {t t' : Tree}, S.trees t t' → S.stmts (stmtOf source t) (stmtOf source' t')
  | .node kind span ts, .node kind' span' ts', h => by
    have hspan : S.spans span span' := S.span h
    obtain ⟨-, -, hts⟩ | ⟨hnumber, hnumber', -⟩ := S.tree h
    case inr =>
      rw [stmtOf_number hnumber, stmtOf_number hnumber']
      exact S.stmt (.malformed hspan)
    clear h
    cases kind
    case letDeclaration | constDeclaration =>
      rw [Program.stmtOf, Program.stmtOf]
      exact declOf hspan hts
    case letIn =>
      rw [Program.stmtOf, Program.stmtOf]
      obtain ⟨hx, hy⟩ | ⟨decls, decls', s, s', body, body', hx, hy, hs, hdecls, hbody⟩ :=
        letInOf hts <;> rw [hx, hy]
      · exact S.stmt (.malformed hspan)
      · exact S.stmt (.letIn hspan hs hdecls hbody)
    case functionDeclaration =>
      rw [Program.stmtOf, Program.stmtOf]
      exact funOf hspan hts
    case ifStatement =>
      rw [Program.stmtOf, Program.stmtOf]
      exact ifOf hspan hts
    case block =>
      rw [Program.stmtOf, Program.stmtOf]
      exact S.stmt (.block hspan (stmtsOf hts))
    case returnStatement =>
      match ts, ts', hts with
      | [value], [value'], .cons hvalue .nil =>
        rw [Program.stmtOf, Program.stmtOf]
        exact S.stmt (.ret hspan (exprOf hvalue))
      | [], [], _ | _ :: _ :: _, _ :: _ :: _, _ =>
        unfold Program.stmtOf
        exact S.stmt (.malformed hspan)
    case expressionStatement =>
      match ts, ts', hts with
      | [value], [value'], .cons hvalue .nil =>
        rw [Program.stmtOf, Program.stmtOf]
        exact S.stmt (.expr (exprOf hvalue))
      | [], [], _ | _ :: _ :: _, _ :: _ :: _, _ =>
        unfold Program.stmtOf
        exact S.stmt (.malformed hspan)
    case printStatement =>
      match ts, ts', hts with
      | [.node kind span args], [.node kind' span' args'], .cons hargs .nil =>
        have hkind : kind = .argumentList ↔ kind' = .argumentList := S.kind_eq_iff hargs (by decide) (by decide)
        by_cases hlist : kind = .argumentList
        · have hargs : Forall₂ S.trees args args' := S.children hargs hlist (by decide) (by decide)
          rw [hlist, hkind.mp hlist, Program.stmtOf, Program.stmtOf]
          exact S.stmt (.print hspan (exprsOf hargs))
        · rw [stmtOf_print_ne hlist, stmtOf_print_ne (mt hkind.mpr hlist)]
          exact S.stmt (.malformed (S.span hargs))
      | [], [], _ =>
        unfold Program.stmtOf
        exact S.stmt (.malformed hspan)
      | _ :: _ :: _, _ :: _ :: _, _ =>
        rw [stmtOf_print_long, stmtOf_print_long]
        exact S.stmt (.malformed hspan)
    all_goals
      unfold Program.stmtOf
      exact S.stmt (.malformed hspan)
termination_by structural t => t

theorem declOf {constant : Bool} {span span' : Span} (hspan : S.spans span span') :
    ∀ {ts ts' : List Tree}, Forall₂ S.trees ts ts' →
    S.stmts (declOf source constant span ts) (declOf source' constant span' ts')
  | [name, value], [name', value'], .cons hleft (.cons hvalue .nil) => by
    rw [declOf_pair, declOf_pair]
    obtain ⟨hx, hy⟩ | ⟨name, hname, hx, hy⟩ := S.nameOf? hleft <;> rw [hx, hy]
    · exact S.stmt (.malformed (S.span hleft))
    · exact S.declared hspan hname (exprOf hvalue)
  | [], [], _ | [_], [_], _ | _ :: _ :: _ :: _, _ :: _ :: _ :: _, _ => by
    unfold Program.declOf
    exact S.stmt (.malformed hspan)
termination_by structural t => t

theorem inDeclOf : ∀ {t t' : Tree}, S.trees t t' → S.stmts (inDeclOf source t) (inDeclOf source' t')
  | .node kind span ts, .node kind' span' ts', h => by
    have hspan : S.spans span span' := S.span h
    obtain ⟨-, -, hts⟩ | ⟨hnumber, hnumber', -⟩ := S.tree h
    case inr =>
      rw [inDeclOf_number hnumber, inDeclOf_number hnumber']
      exact S.stmt (.malformed hspan)
    clear h
    cases kind
    case letDeclaration | constDeclaration =>
      rw [Program.inDeclOf, Program.inDeclOf]
      exact declOf hspan hts
    all_goals
      unfold Program.inDeclOf
      exact S.stmt (.malformed hspan)
termination_by structural t => t

theorem letInOf : ∀ {ts ts' : List Tree}, Forall₂ S.trees ts ts' →
    (letInOf source ts = none ∧ letInOf source' ts' = none) ∨
      ∃ decls decls' s s' body body', letInOf source ts = some (decls, s, body) ∧
        letInOf source' ts' = some (decls', s', body') ∧
        S.spans s s' ∧ Forall₂ S.stmts decls decls' ∧ Forall₂ S.stmts body body'
  | [], _, .nil => by
    rw [Program.letInOf, Program.letInOf]
    exact .inl ⟨rfl, rfl⟩
  | [body], [body'], .cons hbody .nil => by
    rw [Program.letInOf, Program.letInOf]
    exact .inr ⟨_, _, _, _, _, _, rfl, rfl, S.span hbody, .nil, blockOf hbody⟩
  | decl :: t :: rest, decl' :: t' :: rest', .cons hdecl hrest => by
    rw [letInOf_cons, letInOf_cons]
    obtain ⟨hx, hy⟩ | ⟨decls, decls', s, s', body, body', hx, hy, hs, hdecls, hbody⟩ :=
      letInOf hrest <;> rw [hx, hy]
    · exact .inl ⟨rfl, rfl⟩
    · exact .inr ⟨_, _, _, _, _, _, rfl, rfl, hs, .cons (inDeclOf hdecl) hdecls, hbody⟩
termination_by structural t => t

theorem funOf {span span' : Span} (hspan : S.spans span span') : ∀ {ts ts' : List Tree}, Forall₂ S.trees ts ts' →
    S.stmts (funOf source span ts) (funOf source' span' ts')
  | [name, params, .node kind bodySpan statements], [name', params', .node kind' bodySpan' statements'],
    .cons hcallee (.cons hparams (.cons hbody .nil)) => by
    have hkind : kind = .block ↔ kind' = .block := S.kind_eq_iff hbody (by decide) (by decide)
    by_cases hblock : kind = .block
    · have hstatements : Forall₂ S.trees statements statements' := S.children hbody hblock (by decide) (by decide)
      rw [hblock, hkind.mp hblock, Program.funOf, Program.funOf]
      obtain ⟨hx, hy⟩ | ⟨name, hname, hx, hy⟩ := S.nameOf? hcallee <;> rw [hx, hy]
      · exact S.stmt (.malformed (S.span hcallee))
      · obtain ⟨names, hnames, hx, hy⟩ | ⟨_, _, _, hparam, hx, hy⟩ := S.paramsOf hparams <;> rw [hx, hy]
        · exact S.stmt (.funDecl hspan hname hnames (S.body (.block (S.span hbody) (stmtsOf hstatements))))
        · exact S.stmt (.malformed hparam)
    · rw [funOf_ne hblock, funOf_ne (mt hkind.mpr hblock)]
      exact S.stmt (.malformed (S.span hbody))
  | [], [], _ | [_], [_], _ | [_, _], [_, _], _ => by
    unfold Program.funOf
    exact S.stmt (.malformed hspan)
  | _ :: _ :: _ :: _ :: _, _ :: _ :: _ :: _ :: _, _ => by
    rw [funOf_long, funOf_long]
    exact S.stmt (.malformed hspan)
termination_by structural t => t

theorem ifOf {span span' : Span} (hspan : S.spans span span') : ∀ {ts ts' : List Tree}, Forall₂ S.trees ts ts' →
    S.stmts (ifOf source span ts) (ifOf source' span' ts')
  | [test, body], [test', body'], .cons htest (.cons hbody .nil) => by
    rw [Program.ifOf, Program.ifOf]
    exact S.stmt (.ifThen hspan (S.span hbody) (exprOf htest) (blockOf hbody))
  | [test, body, .node kind s ts], [test', body', .node kind' s' ts'], .cons htest (.cons hbody (.cons hother .nil)) =>
    by
    have hs : S.spans s s' := S.span hother
    have hnone : S.stmts (.malformed s .notElse) (.malformed s' .notElse) := S.stmt (.malformed hs)
    obtain ⟨-, -, hts⟩ | ⟨hnumber, hnumber', -⟩ := S.tree hother
    case inr =>
      rw [ifOf_number hnumber, ifOf_number hnumber']
      exact S.stmt (.ifElse hspan (S.span hbody) hs (exprOf htest) (blockOf hbody) (.cons hnone .nil))
    cases kind
    case elseIf =>
      rw [Program.ifOf, Program.ifOf]
      exact S.stmt (.ifElseIf hspan (S.span hbody) (exprOf htest) (blockOf hbody) (ifOf hs hts))
    case elseStatement =>
      match ts, ts', hts with
      | [other], [other'], .cons hother .nil =>
        rw [Program.ifOf, Program.ifOf]
        exact S.stmt (.ifElse hspan (S.span hbody) (S.span hother) (exprOf htest) (blockOf hbody) (blockOf hother))
      | [], [], _ | _ :: _ :: _, _ :: _ :: _, _ =>
        unfold Program.ifOf
        exact S.stmt (.ifElse hspan (S.span hbody) hs (exprOf htest) (blockOf hbody)
          (.cons (S.stmt (.malformed hs)) .nil))
    all_goals
      unfold Program.ifOf
      exact S.stmt (.ifElse hspan (S.span hbody) hs (exprOf htest) (blockOf hbody) (.cons hnone .nil))
  | [], [], _ | [_], [_], _ => by
    unfold Program.ifOf
    exact S.stmt (.malformed hspan)
  | _ :: _ :: _ :: _ :: _, _ :: _ :: _ :: _ :: _, _ => by
    rw [ifOf_long, ifOf_long]
    exact S.stmt (.malformed hspan)
termination_by structural t => t

end

theorem ofTree (h : S.trees t t') : Forall₂ S.stmts (ofTree source t) (ofTree source' t') := by
  obtain ⟨kind, span, ts⟩ := t
  obtain ⟨kind', span', ts'⟩ := t'
  obtain ⟨-, -, hts⟩ | ⟨hnumber, hnumber', -⟩ := S.tree h
  · cases kind
    case program => exact S.stmtsOf hts
    all_goals exact .cons (S.stmt (.malformed (S.span h))) .nil
  · rw [ofTree_number hnumber, ofTree_number hnumber']
    exact .cons (S.stmt (.malformed (S.span h))) .nil

end Simulation
end Program
end Bies
