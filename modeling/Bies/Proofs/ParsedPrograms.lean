import Bies.Program
import Bies.Proofs.Grammar
import Bies.Proofs.TokenText

/-!
# What is wrong with a parsed program

A tree of the parser has the right shape everywhere. All that `Program.ofTree` finds wrong with it are
numbers that cannot be read, and its operators are those of the grammar.
-/

namespace Bies

structure Bounds where
  fault : Fault → Prop := fun _ => True
  arithmetic : String → Prop := fun _ => True
  comparison : String → Prop := fun _ => True
  function : String → Prop := fun _ => True
  string : String → Prop := fun _ => True

def Parser.arithmeticOperators : List String := additiveOperators ++ multiplicativeOperators ++ ["**"]

def Stmt.isLink : Stmt → Bool
  | .ifThen .. | .ifElse .. | .ifElseIf .. | .malformed .. => true
  | _ => false

mutual

def Expr.Within (b : Bounds) : Expr → Prop
  | .arithmetic _ left op right => b.arithmetic op ∧ left.Within b ∧ right.Within b
  | .comparison _ left op right => b.comparison op ∧ left.Within b ∧ right.Within b
  | .call _ _ args => Expr.AllWithin b args
  | .list _ items => Expr.AllWithin b items
  | .access _ _ index => index.Within b
  | .lambda _ _ body => body.Within b
  | .malformed _ fault => b.fault fault
  | .str _ text => b.string text
  | .int .. | .float .. | .ident .. => True

def Expr.AllWithin (b : Bounds) : List Expr → Prop
  | [] => True
  | e :: rest => e.Within b ∧ Expr.AllWithin b rest

def Body.Within (b : Bounds) : Body → Prop
  | .block _ statements => Stmt.AllWithin b statements
  | .value _ value => value.Within b

def Stmt.Within (b : Bounds) : Stmt → Prop
  | .decl _ _ _ value | .ret _ value => value.Within b
  | .lambdaDecl _ name _ _ body | .funDecl _ name _ body => b.function name ∧ body.Within b
  | .letIn _ decls _ body => Stmt.AllWithin b decls ∧ Stmt.AllWithin b body
  | .ifThen _ test _ body => test.Within b ∧ Stmt.AllWithin b body
  | .ifElse _ test _ body _ other => test.Within b ∧ Stmt.AllWithin b body ∧ Stmt.AllWithin b other
  | .ifElseIf _ test _ body link => test.Within b ∧ Stmt.AllWithin b body ∧ link.isLink = true ∧ link.Within b
  | .block _ statements => Stmt.AllWithin b statements
  | .print _ args => Expr.AllWithin b args
  | .expr value => value.Within b
  | .malformed _ fault => b.fault fault

def Stmt.AllWithin (b : Bounds) : List Stmt → Prop
  | [] => True
  | s :: rest => s.Within b ∧ Stmt.AllWithin b rest

end

namespace Program

variable {source : List Char} {b : Bounds}

/-! ## Lists of trees -/

theorem allWithin_exprsOf {ts : List Tree} :
    Expr.AllWithin b (exprsOf source ts) ↔ ∀ t ∈ ts, (exprOf source t).Within b := by
  induction ts with
  | nil => simp [exprsOf, Expr.AllWithin]
  | cons t ts ih => simp [exprsOf, Expr.AllWithin, ih]

theorem allWithin_map {f : Tree → Stmt} {ts : List Tree} :
    Stmt.AllWithin b (ts.map f) ↔ ∀ t ∈ ts, (f t).Within b := by
  induction ts with
  | nil => simp [Stmt.AllWithin]
  | cons t ts ih => simp [Stmt.AllWithin, ih]

theorem stmtsOf_eq_map : ∀ ts : List Tree, stmtsOf source ts = ts.map (stmtOf source)
  | [] => by rw [stmtsOf, List.map_nil]
  | t :: ts => by rw [stmtsOf, List.map_cons, stmtsOf_eq_map ts]

theorem letInOf_append (ds : List Tree) (body : Tree) :
    letInOf source (ds ++ [body]) = some (ds.map (inDeclOf source), body.span, blockOf source body) := by
  induction ds with
  | nil => simp [letInOf]
  | cons d ds ih => rw [List.cons_append, letInOf, ih]; rfl; simp

/-! ## Any tree -/

/-- Induction over trees: what holds of a node if it holds of its children holds of every tree. -/
theorem treeInduction {P : Tree → Prop} (h : ∀ kind span ts, (∀ t ∈ ts, P t) → P (.node kind span ts))
    (t : Tree) : P t :=
  @Tree.rec P (fun ts => ∀ t ∈ ts, P t) h (fun _ ht => absurd ht List.not_mem_nil)
    (fun _ _ ht hts => List.forall_mem_cons.mpr ⟨ht, hts⟩) t

structure Linked (source : List Char) (t : Tree) : Prop where
  expr : (exprOf source t).Within {}
  block : Stmt.AllWithin {} (blockOf source t)
  stmt : (stmtOf source t).Within {}
  decl : (inDeclOf source t).Within {}
  args : Expr.AllWithin {} (exprsOf source t.children)
  bodies : ∀ body ∈ t.children, Stmt.AllWithin {} (blockOf source body)
  cond : ∀ span, (ifOf source span t.children).Within {} ∧ (ifOf source span t.children).isLink = true

section
variable {ts : List Tree} (span : Span) (h : ∀ t ∈ ts, Linked source t)

include h

theorem exprsOf_linked : Expr.AllWithin {} (exprsOf source ts) := allWithin_exprsOf.mpr fun t ht => (h t ht).expr

theorem stmtsOf_linked : Stmt.AllWithin {} (stmtsOf source ts) := by
  rw [stmtsOf_eq_map]
  exact allWithin_map.mpr fun t ht => (h t ht).stmt

theorem declOf_linked (constant : Bool) : (declOf source constant span ts).Within {} := by
  unfold declOf
  split
  · rename_i name value
    have hvalue := (h value (by simp)).expr
    split
    · trivial
    · split
      next heq =>
        rw [heq] at hvalue
        exact ⟨trivial, hvalue⟩
      next => exact hvalue
  · trivial

theorem exprOf_linked (kind : Tree.Kind) : (exprOf source (.node kind span ts)).Within {} := by
  unfold exprOf
  split
  case h_1 | h_2 => split <;> trivial
  case h_3 | h_4 => trivial
  case h_5 | h_6 =>
    split
    · split
      · exact ⟨trivial, (h _ (by simp)).expr, (h _ (by simp)).expr⟩
      · trivial
    · trivial
  case h_7 =>
    split
    · split
      · trivial
      · split
        · exact (h _ (List.mem_cons_of_mem _ List.mem_cons_self)).args
        · trivial
    · trivial
  case h_8 =>
    split
    · split
      · trivial
      · exact (h _ (by simp)).expr
    · trivial
  case h_9 => exact exprsOf_linked h
  case h_10 =>
    split
    · split
      · trivial
      · split
        · exact (h _ (by simp)).block
        · exact (h _ (by simp)).expr
    · trivial
  case h_11 => trivial

theorem ifOf_linked : (ifOf source span ts).Within {} ∧ (ifOf source span ts).isLink = true := by
  unfold ifOf
  split
  · exact ⟨⟨(h _ (by simp)).expr, (h _ (by simp)).block⟩, rfl⟩
  · rename_i test body s children
    obtain ⟨hlink, hislink⟩ := (h (.node .elseIf s children) (by simp)).cond s
    exact ⟨⟨(h test (by simp)).expr, (h body (by simp)).block, hislink, hlink⟩, rfl⟩
  · rename_i test body s other
    have hother := (h (.node .elseStatement s [other]) (by simp)).bodies other (by simp [Tree.children])
    exact ⟨⟨(h test (by simp)).expr, (h body (by simp)).block, hother⟩, rfl⟩
  · exact ⟨⟨(h _ (by simp)).expr, (h _ (by simp)).block, trivial, trivial⟩, rfl⟩
  · exact ⟨⟨(h _ (by simp)).expr, (h _ (by simp)).block, trivial, trivial⟩, rfl⟩
  · exact ⟨trivial, rfl⟩

theorem funOf_linked : (funOf source span ts).Within {} := by
  unfold funOf
  split
  · rename_i name params bodySpan statements
    have hbody := (h (.node .block bodySpan statements) (by simp)).block
    rw [blockOf] at hbody
    split
    · trivial
    · split
      · trivial
      · exact ⟨trivial, hbody⟩
  · trivial
  · trivial

theorem stmtOf_linked (kind : Tree.Kind) : (stmtOf source (.node kind span ts)).Within {} := by
  unfold stmtOf
  split
  case h_1 | h_2 => exact declOf_linked span h _
  case h_3 =>
    rcases ts.eq_nil_or_concat with rfl | ⟨decls, body, rfl⟩
    · trivial
    · rw [List.concat_eq_append, letInOf_append]
      exact ⟨allWithin_map.mpr fun d hd => (h d (by simp [hd])).decl, (h body (by simp)).block⟩
  case h_4 => exact funOf_linked span h
  case h_5 => exact (ifOf_linked span h).1
  case h_6 => exact stmtsOf_linked h
  case h_7 | h_9 =>
    split
    · exact (h _ (by simp)).expr
    · trivial
  case h_8 =>
    split
    · exact (h _ List.mem_cons_self).args
    · trivial
    · trivial
  case h_10 => trivial

end

theorem linked (t : Tree) : Linked source t := by
  refine treeInduction (fun kind span ts h => ?_) t
  refine ⟨exprOf_linked span h kind, ?_, stmtOf_linked span h kind, ?_, exprsOf_linked h, fun t ht => (h t ht).block,
    fun s => ifOf_linked s h⟩
  · unfold blockOf
    split
    next heq =>
      cases heq
      exact stmtsOf_linked h
    next => exact ⟨trivial, trivial⟩
  · unfold inDeclOf
    split
    next heq =>
      cases heq
      exact declOf_linked _ h false
    next heq =>
      cases heq
      exact declOf_linked _ h true
    next => trivial

theorem ofTree_within (tree : Tree) : Stmt.AllWithin {} (ofTree source tree) := by
  unfold ofTree
  split
  · exact stmtsOf_linked fun t _ => linked t
  · exact ⟨trivial, trivial⟩

/-! ## Trees of the parser -/

end Program

open Program in
def Phrase.Meets (b : Bounds) (source : List Char) : Phrase → Tree → Prop
  | .name, t => t.kind = .identifier ∧ b.function (t.text source)
  | .operator texts, t => t.kind = .operator ∧
    (texts ⊆ Parser.arithmeticOperators → b.arithmetic (t.text source)) ∧
    (texts ⊆ Parser.comparisonOperators → b.comparison (t.text source))
  | .list p _, t | .more p, t | .sequence p _, t => p.Meets b source t
  | .parameters, t => ∃ names, paramsOf source t = .ok names
  | .arguments, t => t.kind = .argumentList ∧ ∀ arg ∈ t.children, (exprOf source arg).Within b
  | .block, t => t.kind = .block ∧ ∀ stmt ∈ t.children, (stmtOf source stmt).Within b
  | .declaration, t => (stmtOf source t).Within b ∧ inDeclOf source t = stmtOf source t
  | .statement, t | .letIn, t => (stmtOf source t).Within b
  | .conditional kind, t =>
    t.kind = kind ∧ (ifOf source t.span t.children).Within b ∧ (ifOf source t.span t.children).isLink = true
  | .expression, t | .lambda, t | .comparison, t | .sum, t | .product, t | .power, t | .unary, t | .primary, t =>
    t.kind ≠ .block ∧ (exprOf source t).Within b

structure Bounds.Admits (b : Bounds) (source : List Char) (t : Token) : Prop where
  function : t.kind = .identifier → b.function (t.span.text source)
  arithmetic : ∀ op ∈ Parser.arithmeticOperators, t.isSymbol op = true → b.arithmetic (t.span.text source)
  comparison : ∀ op ∈ Parser.comparisonOperators, t.isSymbol op = true → b.comparison (t.span.text source)

structure Bounds.AdmitsAll (b : Bounds) (source : List Char) (t : Token) : Prop extends b.Admits source t where
  string : t.kind = .string → Parser.isTerminatedString t.text.toList = true → b.string (t.span.text source)

section
variable {b : Bounds} {source : List Char}

open Program

theorem within_number (hint : b.fault .integerOutOfRange) (hfloat : b.fault .floatNotNumber) (t : Token) (span : Span) :
    (Tree.leaf (Parser.numberKind t) span).kind ≠ .block ∧
      (exprOf source (.leaf (Parser.numberKind t) span)).Within b := by
  unfold Parser.numberKind
  split
  · refine ⟨nofun, ?_⟩
    rw [Tree.leaf, exprOf]
    split
    · trivial
    · exact hfloat
  · refine ⟨nofun, ?_⟩
    rw [Tree.leaf, exprOf]
    split
    · trivial
    · exact hint

theorem nameOf?_of_meets {t : Tree} (h : Phrase.name.Meets b source t) : nameOf? source t = some (t.text source) :=
  if_pos h.1

theorem paramsOf_of_meets {ts : List Tree} (span : Span) (h : ∀ t ∈ ts, Phrase.name.Meets b source t) :
    ∃ names, paramsOf source (.node .parameterList span ts) = .ok names := by
  simp only [paramsOf, Tree.kind, Tree.children, if_true]
  induction ts with
  | nil => exact ⟨[], rfl⟩
  | cons t ts ih =>
    obtain ⟨ht, hts⟩ := List.forall_mem_cons.mp h
    obtain ⟨names, hnames⟩ := ih hts
    refine ⟨t.text source :: names, ?_⟩
    rw [List.mapM_cons, nameOf?_of_meets ht, hnames]
    rfl

theorem blockOf_of_meets {t : Tree} (h : Phrase.block.Meets b source t) :
    t.kind = .block ∧ Stmt.AllWithin b (blockOf source t) := by
  obtain ⟨kind, span, children⟩ := t
  obtain ⟨rfl, hchildren⟩ := h
  refine ⟨rfl, ?_⟩
  rw [blockOf]
  rw [stmtsOf_eq_map]
  exact allWithin_map.mpr hchildren

/-! One lemma for each rule of the grammar with a tree of its own. -/

attribute [local simp] Phrase.Meets exprOf stmtOf inDeclOf ifOf funOf declOf

namespace Phrase.Meets

variable {kind : Tree.Kind} {span : Span} {t left op right name params args test body other link value : Tree}
  {ts : List Tree}

theorem arguments (h : ∀ t ∈ ts, Phrase.expression.Meets b source t) :
    Phrase.arguments.Meets b source (.node .argumentList span ts) :=
  ⟨rfl, fun arg harg => (h arg harg).2⟩

theorem declaration (hkind : kind = .letDeclaration ∨ kind = .constDeclaration)
    (hname : Phrase.name.Meets b source name) (hvalue : Phrase.expression.Meets b source value) :
    Phrase.declaration.Meets b source (.node kind span [name, value]) := by
  have hdecl : ∀ constant, (declOf source constant span [name, value]).Within b := by
    intro constant
    rw [declOf, nameOf?_of_meets hname]
    dsimp only
    split
    next heq =>
      have hlambda := hvalue.2
      rw [heq] at hlambda
      exact ⟨hname.2, hlambda⟩
    next => exact hvalue.2
  rcases hkind with rfl | rfl
  · rw [Phrase.Meets, stmtOf, inDeclOf]
    exact ⟨hdecl false, rfl⟩
  · rw [Phrase.Meets, stmtOf, inDeclOf]
    exact ⟨hdecl true, rfl⟩

theorem letIn (hds : ∀ d ∈ ts, Phrase.declaration.Meets b source d) (hbody : Phrase.block.Meets b source body) :
    Phrase.letIn.Meets b source (.node .letIn span (ts ++ [body])) := by
  rw [Phrase.Meets, stmtOf, letInOf_append]
  refine ⟨allWithin_map.mpr fun d hd => ?_, (blockOf_of_meets hbody).2⟩
  rw [(hds d hd).2]
  exact (hds d hd).1

theorem function (hname : Phrase.name.Meets b source name) (hparams : Phrase.parameters.Meets b source params)
    (hbody : Phrase.block.Meets b source body) :
    Phrase.statement.Meets b source (.node .functionDeclaration span [name, params, body]) := by
  obtain ⟨names, hparams⟩ := hparams
  obtain ⟨kind, _, statements⟩ := body
  obtain ⟨rfl, hstatements⟩ := hbody
  rw [Phrase.Meets, stmtOf, funOf, nameOf?_of_meets hname, hparams, stmtsOf_eq_map]
  exact ⟨hname.2, allWithin_map.mpr hstatements⟩

theorem ofConditional (h : (Phrase.conditional .ifStatement).Meets b source t) : Phrase.statement.Meets b source t := by
  obtain ⟨kind, _, children⟩ := t
  obtain ⟨rfl, hwithin, -⟩ := h
  rw [Phrase.Meets, stmtOf]
  exact hwithin

theorem ret (h : Phrase.expression.Meets b source value) :
    Phrase.statement.Meets b source (.node .returnStatement span [value]) := by
  rw [Phrase.Meets, stmtOf]
  exact h.2

theorem print (h : Phrase.arguments.Meets b source args) :
    Phrase.statement.Meets b source (.node .printStatement span [args]) := by
  obtain ⟨kind, _, children⟩ := args
  obtain ⟨rfl, hchildren⟩ := h
  rw [Phrase.Meets, stmtOf]
  exact allWithin_exprsOf.mpr hchildren

theorem ofBlock (h : Phrase.block.Meets b source t) : Phrase.statement.Meets b source t := by
  obtain ⟨kind, _, children⟩ := t
  obtain ⟨rfl, hchildren⟩ := h
  rw [Phrase.Meets, stmtOf, stmtsOf_eq_map]
  exact allWithin_map.mpr hchildren

theorem ofExpression (h : Phrase.expression.Meets b source value) :
    Phrase.statement.Meets b source (.covering .expressionStatement [value]) := by
  rw [Phrase.Meets, Tree.covering, stmtOf]
  exact h.2

theorem ifThen (htest : Phrase.expression.Meets b source test) (hbody : Phrase.block.Meets b source body) :
    (Phrase.conditional kind).Meets b source (.node kind span [test, body]) := by
  refine ⟨rfl, ?_⟩
  rw [Tree.span, Tree.children, ifOf]
  exact ⟨⟨htest.2, (blockOf_of_meets hbody).2⟩, rfl⟩

theorem ifElse {inner : Span} (htest : Phrase.expression.Meets b source test) (hbody : Phrase.block.Meets b source body)
    (hother : Phrase.block.Meets b source other) :
    (Phrase.conditional kind).Meets b source (.node kind span [test, body, .node .elseStatement inner [other]]) := by
  refine ⟨rfl, ?_⟩
  rw [Tree.span, Tree.children, ifOf]
  exact ⟨⟨htest.2, (blockOf_of_meets hbody).2, (blockOf_of_meets hother).2⟩, rfl⟩

theorem ifElseIf (htest : Phrase.expression.Meets b source test) (hbody : Phrase.block.Meets b source body)
    (hlink : (Phrase.conditional .elseIf).Meets b source link) :
    (Phrase.conditional kind).Meets b source (.node kind span [test, body, link]) := by
  obtain ⟨_, _, children⟩ := link
  obtain ⟨rfl, hlink, hislink⟩ := hlink
  refine ⟨rfl, ?_⟩
  rw [Tree.span, Tree.children, ifOf]
  exact ⟨⟨htest.2, (blockOf_of_meets hbody).2, hislink, hlink⟩, rfl⟩

theorem lambdaBlock (hparams : Phrase.parameters.Meets b source params) (hbody : Phrase.block.Meets b source body) :
    Phrase.lambda.Meets b source (.node .lambda span [params, body]) := by
  obtain ⟨names, hparams⟩ := hparams
  obtain ⟨hkind, hbody⟩ := blockOf_of_meets hbody
  rw [Phrase.Meets, exprOf, hparams]
  refine ⟨by simp [Tree.kind], ?_⟩
  dsimp only
  rw [if_pos hkind]
  exact hbody

theorem lambdaValue (hparams : Phrase.parameters.Meets b source params)
    (hvalue : Phrase.expression.Meets b source value) :
    Phrase.lambda.Meets b source (.node .lambda span [params, value]) := by
  obtain ⟨names, hparams⟩ := hparams
  rw [Phrase.Meets, exprOf, hparams]
  refine ⟨by simp [Tree.kind], ?_⟩
  dsimp only
  rw [if_neg hvalue.1]
  exact hvalue.2

theorem comparison (hleft : Phrase.sum.Meets b source left)
    (hop : (Phrase.operator Parser.comparisonOperators).Meets b source op) (hright : Phrase.sum.Meets b source right) :
    Phrase.comparison.Meets b source (.covering .comparison [left, op, right]) := by
  rw [Phrase.Meets, Tree.covering, exprOf, if_pos hop.1]
  exact ⟨by simp [Tree.kind], hop.2.2 fun _ h => h, hleft.2, hright.2⟩

theorem arithmetic {texts : List String} (htexts : texts ⊆ Parser.arithmeticOperators)
    (hleft : Phrase.expression.Meets b source left) (hop : (Phrase.operator texts).Meets b source op)
    (hright : Phrase.expression.Meets b source right) :
    Phrase.expression.Meets b source (.covering .arithmetic [left, op, right]) := by
  rw [Phrase.Meets, Tree.covering, exprOf, if_pos hop.1]
  exact ⟨by simp [Tree.kind], hop.2.1 htexts, hleft.2, hright.2⟩

theorem ofName (h : Phrase.name.Meets b source t) : Phrase.primary.Meets b source t := by
  obtain ⟨kind, _, children⟩ := t
  obtain ⟨rfl, -⟩ := h
  rw [Phrase.Meets, exprOf]
  exact ⟨by simp [Tree.kind], trivial⟩

theorem call (hname : Phrase.name.Meets b source name) (hargs : Phrase.arguments.Meets b source args) :
    Phrase.primary.Meets b source (.covering .call [name, args]) := by
  obtain ⟨kind, _, children⟩ := args
  obtain ⟨rfl, hchildren⟩ := hargs
  rw [Phrase.Meets, Tree.covering, exprOf, nameOf?_of_meets hname]
  exact ⟨by simp [Tree.kind], allWithin_exprsOf.mpr hchildren⟩

theorem access (hname : Phrase.name.Meets b source name) (hindex : Phrase.expression.Meets b source value) :
    Phrase.primary.Meets b source (.node .listAccess span [name, value]) := by
  rw [Phrase.Meets, exprOf, nameOf?_of_meets hname]
  exact ⟨by simp [Tree.kind], hindex.2⟩

theorem listLiteral (h : ∀ t ∈ ts, Phrase.expression.Meets b source t) :
    Phrase.primary.Meets b source (.node .listLiteral span ts) := by
  rw [Phrase.Meets, exprOf]
  exact ⟨by simp [Tree.kind], allWithin_exprsOf.mpr fun item hitem => (h item hitem).2⟩

end Phrase.Meets

theorem Derives.meets (hint : b.fault .integerOutOfRange) (hfloat : b.fault .floatNotNumber) {p : Phrase}
    {us rest : List Token} {ts : List Tree} (h : Derives p us ts rest) (hus : ∀ t ∈ us, b.AdmitsAll source t) :
    ∀ t ∈ ts, p.Meets b source t := by
  -- nothing is asked where there is no tree
  induction h with
    try simp only [List.forall_mem_cons, List.forall_mem_append, List.not_mem_nil, false_imp_iff, implies_true,
      and_true] at *
  | name hkind => exact ⟨rfl, hus.function hkind⟩
  | operator htext ht =>
    exact ⟨rfl, fun hsub => hus.arithmetic _ (hsub htext) ht, fun hsub => hus.comparison _ (hsub htext) ht⟩
  | list _ _ _ ih ihs | sequence _ _ _ _ ih ihs => exact ⟨ih hus.1, ihs hus.2⟩
  | more _ _ _ ih ihs => exact ⟨ih hus.2.1, ihs hus.2.2⟩
  | semicolon _ _ _ _ ih ihs => exact ⟨ih hus.1, ihs hus.2.2⟩
  | parameters _ _ _ ih => exact paramsOf_of_meets _ (ih hus.2.1)
  | arguments _ _ _ ih => exact .arguments (ih hus.2.1)
  | letDeclaration _ _ _ _ ihname ihvalue => exact .declaration (.inl rfl) (ihname hus.2.1) (ihvalue hus.2.2.2)
  | constDeclaration _ _ _ _ ihname ihvalue => exact .declaration (.inr rfl) (ihname hus.2.1) (ihvalue hus.2.2.2)
  | ofDeclaration _ _ ih => exact fun t ht => (ih hus t ht).1
  | letIn _ _ _ _ _ _ ihds ihbody => exact .letIn (ihds hus.2.2.1) (ihbody hus.2.2.2.2.2)
  | function _ _ _ _ ihname ihparams ihbody => exact .function (ihname hus.2.1) (ihparams hus.2.2.1) (ihbody hus.2.2.2)
  | ofConditional _ ih => exact fun t ht => .ofConditional (ih hus t ht)
  | ret _ _ ih => exact .ret (ih hus.2)
  | print _ _ ih => exact .print (ih hus.2)
  | ofBlock _ ih => exact fun t ht => .ofBlock (ih hus t ht)
  | ofExpression _ _ ih => exact .ofExpression (ih hus)
  | ifThen _ _ _ _ _ _ _ ihtest ihbody => exact .ifThen (ihtest hus.2.2.1) (ihbody hus.2.2.2.2)
  | ifElse _ _ _ _ _ _ _ _ ihtest ihbody ihother =>
    exact .ifElse (ihtest hus.2.2.1) (ihbody hus.2.2.2.2.1) (ihother hus.2.2.2.2.2.2)
  | ifElseIf _ _ _ _ _ _ _ _ ihtest ihbody ihlink =>
    exact .ifElseIf (ihtest hus.2.2.1) (ihbody hus.2.2.2.2.1) (ihlink hus.2.2.2.2.2.2)
  | block _ _ _ ih => exact ⟨rfl, ih hus.2.1⟩
  | lambdaBlock _ _ _ ihparams ihbody => exact .lambdaBlock (ihparams hus.1) (ihbody hus.2.2)
  | lambdaValue _ _ _ _ ihparams ihvalue => exact .lambdaValue (ihparams hus.1) (ihvalue hus.2.2)
  | comparison _ _ _ _ ihleft ihop ihright => exact .comparison (ihleft hus.1) (ihop hus.2.1) (ihright hus.2.2)
  | sum _ _ _ _ ihleft ihop ihright | product _ _ _ ihleft ihop ihright | power _ _ _ ihleft ihop ihright =>
    exact .arithmetic (by decide) (ihleft hus.1) (ihop hus.2.1) (ihright hus.2.2)
  | ofLetIn _ ih | ofLambda _ _ ih | ofComparison _ _ ih | ofSum _ _ ih | ofProduct _ _ ih | ofPower _ ih
  | ofUnary _ _ ih | ofPrimary _ _ ih => exact ih hus
  | negative | number => exact within_number hint hfloat _ _
  | string hkind hclosed =>
    rw [Phrase.Meets, Tree.leaf, exprOf]
    exact ⟨by simp [Tree.kind], hus.string hkind hclosed⟩
  | ofName _ _ ih => exact fun t ht => .ofName (ih hus t ht)
  | call _ _ ihname ihargs => exact .call (ihname hus.1) (ihargs hus.2)
  | access _ _ _ _ ihname ihindex => exact .access (ihname hus.1) (ihindex hus.2.2.1)
  | listLiteral _ _ _ _ ih => exact .listLiteral (ih hus.2.1)
  | parenthesized _ _ _ _ ih => exact ih hus.2.1

theorem Program.within_of_parse {tree : Tree} (h : Tree.parse source = .ok tree)
    (hint : b.fault .integerOutOfRange) (hfloat : b.fault .floatNotNumber)
    (htokens : ∀ t ∈ Token.scan source, b.Admits source t)
    (hstrings : ∀ t ∈ Token.scan source, t.kind = .string → Parser.isTerminatedString t.text.toList = true →
      b.string (t.span.text source) := by exact fun _ _ _ _ => trivial) :
    Stmt.AllWithin b (ofTree source tree) := by
  obtain ⟨ts, rfl, hderives⟩ := Tree.derives_of_parse h
  rw [ofTree, stmtsOf_eq_map]
  refine allWithin_map.mpr (hderives.meets hint hfloat fun t ht => ?_)
  have ht := (List.mem_filter.mp ht).1
  exact ⟨htokens t ht, hstrings t ht⟩

end

def Fault.OfNumber (fault : Fault) : Prop := fault = .integerOutOfRange ∨ fault = .floatNotNumber

def Bounds.parsed : Bounds where
  fault := Fault.OfNumber
  arithmetic op := op ∈ Parser.arithmeticOperators
  comparison op := op ∈ Parser.comparisonOperators

theorem Program.within_parsed {source : List Char} {tree : Tree} (h : Tree.parse source = .ok tree)
    (hsize : byteLength source < 2 ^ 32) : Stmt.AllWithin .parsed (ofTree source tree) := by
  refine within_of_parse h (.inl rfl) (.inr rfl) fun t ht => ?_
  have htext := Token.text_of_mem_scan hsize ht
  constructor
  · exact fun _ => trivial
  · intro op hop hsymbol
    rw [htext, Token.eq_of_isSymbol hsymbol]
    exact hop
  · intro op hop hsymbol
    rw [htext, Token.eq_of_isSymbol hsymbol]
    exact hop

end Bies
