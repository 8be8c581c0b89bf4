import Bies.Proofs.Chain
import Mathlib.Data.List.Forall2

/-!
# Lowering two tables side by side

Two runs of lowering take the same steps if the nodes they lower have the same shape. A `Simulation` says which
nodes, tags and records stand for each other and is a relation between two computations that holds for each
single step and is kept when steps follow each other. It then holds for the runs as a whole.
-/

namespace Bies

open List

/-! ## Codes that differ in single instructions -/

section
variable {same : Instruction → Instruction → Prop} {a b : Code}

theorem Instruction.isRet_congr {i j : Instruction} (h : i = j) : i.isRet = j.isRet := by rw [h]

theorem Code.endsInRet_eq (hret : ∀ {i j}, same i j → i.isRet = j.isRet) (h : Forall₂ same a b) :
    a.endsInRet = b.endsInRet := by
  have hmap : a.map Instruction.isRet = b.map Instruction.isRet := by
    induction h with
    | nil => rfl
    | cons hij _ ih => simp [hret hij, ih]
  have hlast : ∀ c : Code, c.endsInRet = (c.map Instruction.isRet).getLast?.any id := by
    intro c
    rw [List.getLast?_map, Option.any_map]
    rfl
  rw [hlast, hlast, hmap]

namespace Lowering.Chain

inductive Alike (same : Instruction → Instruction → Prop) : Chain → Chain → Prop where
  | done : Alike same .done .done
  | otherwise {a b : Code} : Forall₂ same a b → Alike same (.otherwise a) (.otherwise b)
  | branch {test test' body body' : Code} {rest rest' : Chain} : Forall₂ same test test' →
    Forall₂ same body body' →
    Alike same rest rest' → Alike same (.branch test body rest) (.branch test' body' rest')

theorem Alike.layout (hrefl : ∀ i, same i i) (hret : ∀ {i j}, same i j → i.isRet = j.isRet) {c c' : Chain}
    (h : Alike same c c') : Forall₂ same c.layout c'.layout := by
  induction h with
  | done => exact .nil
  | otherwise h => exact h
  | @branch test test' body body' rest rest' htest hbody hrest ih =>
    have hdone : rest.isDone = rest'.isDone := by cases hrest <;> rfl
    have hleave : leave body rest rest.layout.length = leave body' rest' rest'.layout.length := by
      simp only [leave, hdone, Code.endsInRet_eq hret hbody, ih.length_eq]
    simp only [Chain.layout, hleave, hbody.length_eq]
    apply rel_append htest
    apply Forall₂.cons (hrefl _)
    exact rel_append (rel_append hbody (forall₂_same.mpr fun i _ => hrefl i)) ih

end Lowering.Chain
end

/-! ## Nodes of one shape -/

/-- Two nodes of one kind with the same names and values, which may be used. Their tags and the nodes inside are
related. -/
inductive Node.Paired (tags : Tag → Tag → Prop) (names : String → Prop) (nodes : Node → Node → Prop) :
    Node → Node → Prop where
  | decl {t t' constant name value value'} : tags t t' → names name →
    nodes value value' →
    Paired tags names nodes (.decl t constant name value) (.decl t' constant name value')
  | letIn {t t' decls decls' body body'} : tags t t' → Forall₂ nodes decls decls' →
    nodes body body' → Paired tags names nodes (.letIn t decls body) (.letIn t' decls' body')
  | binary {t t' op left left' right right'} : tags t t' → nodes left left' →
    nodes right right' →
    Paired tags names nodes (.binary t left op right) (.binary t' left' op right')
  | comparison {t t' op left left' right right'} : tags t t' → nodes left left' →
    nodes right right' → Paired tags names nodes (.comparison t left op right) (.comparison t' left' op right')
  | ifThen {t t' test test' body body'} : tags t t' → nodes test test' → nodes body body' →
    Paired tags names nodes (.ifThen t test body) (.ifThen t' test' body')
  | ifElse {t t' test test' body body' other other'} : tags t t' → nodes test test' →
    nodes body body' →
    nodes other other' → Paired tags names nodes (.ifElse t test body other) (.ifElse t' test' body' other')
  | ifElseIf {t t' test test' body body' link link'} : tags t t' → nodes test test' →
    nodes body body' →
    nodes link link' → Paired tags names nodes (.ifElseIf t test body link) (.ifElseIf t' test' body' link')
  | block {t t' statements statements'} : tags t t' → Forall₂ nodes statements statements' →
    Paired tags names nodes (.block t statements) (.block t' statements')
  | funDecl {t t' name params f} : tags t t' →
    Paired tags names nodes (.funDecl t name params f) (.funDecl t' name params f)
  | lambda {t t' params body body' f} : tags t t' → nodes body body' →
    Paired tags names nodes (.lambda t params body f) (.lambda t' params body' f)
  | call {t t' name args args'} : tags t t' → names name →
    Forall₂ nodes args args' →
    Paired tags names nodes (.call t name args) (.call t' name args')
  | print {t t' args args'} : tags t t' → Forall₂ nodes args args' →
    Paired tags names nodes (.print t args) (.print t' args')
  | ret {t t' value value'} : tags t t' → nodes value value' →
    Paired tags names nodes (.ret t value) (.ret t' value')
  | access {t t' name index index'} : tags t t' → names name → nodes index index' →
    Paired tags names nodes (.access t name index) (.access t' name index')
  | list {t t' items items'} : tags t t' → Forall₂ nodes items items' →
    Paired tags names nodes (.list t items) (.list t' items')
  | int {t t' n} : tags t t' → Paired tags names nodes (.int t n) (.int t' n)
  | float {t t' x} : tags t t' → Paired tags names nodes (.float t x) (.float t' x)
  | str {t t' text} : tags t t' → Paired tags names nodes (.str t text) (.str t' text)
  | ident {t t' name} : tags t t' → names name →
    Paired tags names nodes (.ident t name) (.ident t' name)

namespace Node.Paired

variable {tags : Tag → Tag → Prop} {names : String → Prop} {nodes : Node → Node → Prop} {n n' : Node}

theorem tags_tag (h : Paired tags names nodes n n') : tags n.tag n'.tag := by cases h <;> assumption

theorem isLiteral_eq (h : Paired tags names nodes n n') : n.isLiteral = n'.isLiteral := by cases h <;> rfl

theorem isDecl_eq (h : Paired tags names nodes n n') : n.isDecl = n'.isDecl := by cases h <;> rfl

theorem isDeferrable_eq (h : Paired tags names nodes n n') : Lowering.isDeferrable n = Lowering.isDeferrable n' := by
  cases h <;> rfl

theorem imp {tags' : Tag → Tag → Prop} {names' : String → Prop} {nodes' : Node → Node → Prop}
    (h : Paired tags names nodes n n') (htags : ∀ t t', tags t t' → tags' t t')
    (hnames : ∀ x, names x → names' x) (hnodes : ∀ m ∈ n.children, ∀ m', nodes m m' → nodes' m m') :
    Paired tags' names' nodes' n n' := by
  have hall : ∀ {ns ns' : List Node}, Forall₂ nodes ns ns' → (∀ m ∈ ns, m ∈ n.children) →
    Forall₂ nodes' ns ns' := by
    intro ns ns' h
    induction h with
    | nil => exact fun _ => .nil
    | cons h _ ih =>
      exact fun hsub => .cons (hnodes _ (hsub _ List.mem_cons_self) _ h)
        (ih fun m hm => hsub m (List.mem_cons_of_mem _ hm))
  cases h with
  | decl ht hname hv => exact .decl (htags _ _ ht) (hnames _ hname) (hnodes _ (by simp [children]) _ hv)
  | letIn ht hds hb =>
    exact .letIn (htags _ _ ht) (hall hds fun m hm => by simp [children, hm]) (hnodes _ (by simp [children]) _ hb)
  | binary ht hl hr =>
    exact .binary (htags _ _ ht) (hnodes _ (by simp [children]) _ hl) (hnodes _ (by simp [children]) _ hr)
  | comparison ht hl hr =>
    exact .comparison (htags _ _ ht) (hnodes _ (by simp [children]) _ hl) (hnodes _ (by simp [children]) _ hr)
  | ifThen ht hc hb =>
    exact .ifThen (htags _ _ ht) (hnodes _ (by simp [children]) _ hc) (hnodes _ (by simp [children]) _ hb)
  | ifElse ht hc hb ho =>
    exact .ifElse (htags _ _ ht) (hnodes _ (by simp [children]) _ hc) (hnodes _ (by simp [children]) _ hb)
      (hnodes _ (by simp [children]) _ ho)
  | ifElseIf ht hc hb hl =>
    exact .ifElseIf (htags _ _ ht) (hnodes _ (by simp [children]) _ hc) (hnodes _ (by simp [children]) _ hb)
      (hnodes _ (by simp [children]) _ hl)
  | block ht hs => exact .block (htags _ _ ht) (hall hs fun m hm => hm)
  | funDecl ht => exact .funDecl (htags _ _ ht)
  | lambda ht hb => exact .lambda (htags _ _ ht) (hnodes _ (by simp [children]) _ hb)
  | call ht hname hs => exact .call (htags _ _ ht) (hnames _ hname) (hall hs fun m hm => hm)
  | print ht hs => exact .print (htags _ _ ht) (hall hs fun m hm => hm)
  | ret ht hv => exact .ret (htags _ _ ht) (hnodes _ (by simp [children]) _ hv)
  | access ht hname hi => exact .access (htags _ _ ht) (hnames _ hname) (hnodes _ (by simp [children]) _ hi)
  | list ht hs => exact .list (htags _ _ ht) (hall hs fun m hm => hm)
  | int ht => exact .int (htags _ _ ht)
  | float ht => exact .float (htags _ _ ht)
  | str ht => exact .str (htags _ _ ht)
  | ident ht hname => exact .ident (htags _ _ ht) (hnames _ hname)

end Node.Paired

structure FunctionRecord.Paired (labels : String → String → Prop) (nodes : Node → Node → Prop)
    (r r' : FunctionRecord) : Prop where
  id_eq : r.id = r'.id
  labels : labels r.name r'.name
  params_eq : r.params = r'.params
  parent_eq : r.parent = r'.parent
  sequence : Forall₂ nodes r.sequence r'.sequence

structure FunctionCode.Paired (labels : String → String → Prop) (same : Instruction → Instruction → Prop)
    (f f' : FunctionCode) : Prop where
  id_eq : f.id = f'.id
  labels : labels f.name f'.name
  arity_eq : f.arity = f'.arity
  parent_eq : f.parent = f'.parent
  code : Forall₂ same f.code f'.code

namespace Lowering

structure Simulation (table table' : FunctionTable) (o o' : Options) where
  rel : {α : Type} → (α → α → Prop) → Lowering α → Lowering α → Prop
  bind : ∀ {α β : Type} {P : α → α → Prop} {Q : β → β → Prop} {x y : Lowering α} {f h : α → Lowering β},
    rel P x y → (∀ a b, P a b → rel Q (f a) (h b)) → rel Q (x >>= f) (y >>= h)
  ret : ∀ {α : Type} {P : α → α → Prop} {a b : α}, P a b → rel P (pure a) (pure b)
  tags : Tag → Tag → Prop
  /-- The names that may be used. -/
  names : String → Prop
  nodes : Node → Node → Prop
  labels : String → String → Prop
  contexts : Context → Context → Prop
  skips : List Skipped → List Skipped → Prop
  /-- Which instructions may stand for each other. -/
  same : Instruction → Instruction → Prop
  same_refl : ∀ i, same i i
  isRet_eq : ∀ {i j}, same i j → i.isRet = j.isRet
  paired : ∀ {n n' : Node}, nodes n n' → n.Paired tags names nodes n'
  ids : ∀ {t t' u u' : Tag}, tags t t' → tags u u' → (t.id == u.id) = (t'.id == u'.id)
  records : Forall₂ (FunctionRecord.Paired labels nodes) table.records table'.records
  context : ∀ f : FunctionId, contexts ⟨table, o, f, table.chain f⟩ ⟨table', o', f, table'.chain f⟩
  malformed : ∀ {α : Type} {P : α → α → Prop} {t t' : Tag} (fault : Fault), tags t t' →
    rel P (throw (.malformed fault t.span)) (throw (.malformed fault t'.span))
  unknownOperator : ∀ {α : Type} {P : α → α → Prop} {t t' : Tag} (op : String), tags t t' →
    rel P (throw (.unknownOperator op t.span)) (throw (.unknownOperator op t'.span))
  notConditional : ∀ {α : Type} {P : α → α → Prop} {n n' : Node}, nodes n n' →
    rel P (throw (.internal (.notConditional n.describe))) (throw (.internal (.notConditional n'.describe)))
  read : rel (fun s s' => (∀ {t t' : Tag}, tags t t' → s.visits[t.id]? = s'.visits[t'.id]?) ∧
    skips s.skipped s'.skipped) get get
  visit : ∀ {t t' : Tag} (v : Visit), tags t t' → rel (fun _ _ => True) (visit t.id v) (visit t'.id v)
  start : ∀ (f : FunctionId) {name name' : String}, labels name name' →
    rel (fun _ _ => True) (note (.loweringFunction f name)) (note (.loweringFunction f name'))
  skip : ∀ {c c' : Context} {n n' : Node}, contexts c c' → nodes n n' → rel Eq (skip c n) (skip c' n')
  bindName : ∀ {c c' : Context} {name : String} {value value' : Node}, contexts c c' → names name →
    nodes value value' →
    rel Eq (Lowering.bind c name (some value)) (Lowering.bind c' name (some value'))
  loadName : ∀ {c c' : Context} {name : String} {t t' : Tag}, contexts c c' → names name → tags t t' →
    rel Eq (loadName c name t.span) (loadName c' name t'.span)
  arithmetic : ∀ {c c' : Context} {t t' : Tag} {left left' right right' : Node} (op : String), contexts c c' →
    tags t t' →
    nodes left left' → nodes right right' →
    rel same (arithmeticInstruction c t left op right) (arithmeticInstruction c' t' left' op right')
  finishCall : ∀ {c c' : Context} {t t' : Tag} {name : String} {args args' : List Node}, contexts c c' →
    tags t t' →
    names name → Forall₂ nodes args args' → rel Eq (finishCall c t name args) (finishCall c' t' name args')

namespace Simulation

variable {table table' : FunctionTable} {o o' : Options} (S : Simulation table table' o o')
  {c c' : Context} {n n' : Node}
  {ns ns' : List Node} {t t' : Tag}

theorem imp {α : Type} {P Q : α → α → Prop} {x y : Lowering α} (hx : S.rel P x y)
    (h : ∀ a b, P a b → Q a b) : S.rel Q x y := by
  have := S.bind hx fun a b hab => S.ret (h a b hab)
  rwa [bind_pure, bind_pure] at this

theorem refl (code : Code) : Forall₂ S.same code code := forall₂_same.mpr fun i _ => S.same_refl i

theorem tag (h : S.nodes n n') : S.tags n.tag n'.tag := (S.paired h).tags_tag

theorem id_beq (h : S.nodes n n') (ht : S.tags t t') : (n.id == t.id) = (n'.id == t'.id) := S.ids (S.tag h) ht

mutual

theorem contains_eq (ht : S.tags t t') : ∀ {n n' : Node}, S.nodes n n' → n.contains t.id = n'.contains t'.id
  | .decl .., _, h | .ret .., _, h | .lambda .., _, h | .access .., _, h => by
    cases S.paired h
    all_goals next hv => simp only [Node.contains, S.id_beq hv ht, contains_eq ht hv]
  | .letIn .., _, h => by
    cases S.paired h with
    | letIn _ hds hb => simp only [Node.contains, anyWithin_eq ht hds, S.id_beq hb ht, contains_eq ht hb]
  | .binary .., _, h | .comparison .., _, h | .ifThen .., _, h => by
    cases S.paired h
    all_goals next hl hr =>
      simp only [Node.contains, S.id_beq hl ht, contains_eq ht hl, S.id_beq hr ht, contains_eq ht hr]
  | .ifElse .., _, h | .ifElseIf .., _, h => by
    cases S.paired h
    all_goals next htest hb hl =>
      simp only [Node.contains, S.id_beq htest ht, contains_eq ht htest, S.id_beq hb ht,
        contains_eq ht hb, S.id_beq hl ht,
        contains_eq ht hl]
  | .block .., _, h | .call .., _, h | .print .., _, h | .list .., _, h => by
    cases S.paired h
    all_goals next hs => simp only [Node.contains, anyWithin_eq ht hs]
  | .funDecl .., _, h | .int .., _, h | .float .., _, h | .str .., _, h | .ident .., _, h => by
    cases S.paired h
    all_goals rfl

theorem anyWithin_eq (ht : S.tags t t') : ∀ {ns ns' : List Node}, Forall₂ S.nodes ns ns' →
    Node.anyWithin t.id ns = Node.anyWithin t'.id ns'
  | [], _, .nil => rfl
  | _ :: _, _, .cons hn hns => by
    simp only [Node.anyWithin, S.id_beq hn ht, contains_eq ht hn, anyWithin_eq ht hns]

end

theorem isConsumed_eq (h : S.nodes n n') {later later' : List Node} (hlater : Forall₂ S.nodes later later') :
    isConsumed n later = isConsumed n' later' := by
  unfold isConsumed
  rw [(S.paired h).isDeferrable_eq]
  congr 1
  induction hlater with
  | nil => rfl
  | @cons m m' _ _ hm _ ih =>
    have hhead : (m.id != n.id && m.contains n.id) = (m'.id != n'.id && m'.contains n'.id) :=
      congrArg₂ (!· && ·) (S.id_beq hm (S.tag h)) (S.contains_eq (S.tag h) hm)
    rw [List.any_cons, List.any_cons, hhead, ih]

/-! ## Values -/

mutual

theorem literal_cases : ∀ {n n' : Node}, S.nodes n n' → (∃ x, literal n = .ok x ∧ literal n' = .ok x) ∨
    ∃ t t', S.tags t t' ∧ literal n = .error (.malformed .notLiteral t.span) ∧
      literal n' = .error (.malformed .notLiteral t'.span)
  | .list .., _, h => by
    cases S.paired h with
    | list _ hs =>
      unfold literal
      obtain ⟨xs, hx, hy⟩ | ⟨t, t', ht, hx, hy⟩ := literals_cases hs <;> rw [hx, hy]
      · exact .inl ⟨_, rfl, rfl⟩
      · exact .inr ⟨t, t', ht, rfl, rfl⟩
  | .int .., _, h | .float .., _, h | .str .., _, h => by
    cases S.paired h
    all_goals exact .inl ⟨_, rfl, rfl⟩
  | .decl .., _, h | .letIn .., _, h | .binary .., _, h | .comparison .., _, h | .ifThen .., _, h | .ifElse .., _, h
  | .ifElseIf .., _, h | .block .., _, h | .funDecl .., _, h | .lambda .., _, h | .call .., _, h | .print .., _, h
  | .ret .., _, h | .access .., _, h | .ident .., _, h => by
    have ht := S.tag h
    cases S.paired h
    all_goals exact .inr ⟨_, _, ht, rfl, rfl⟩

theorem literals_cases : ∀ {ns ns' : List Node}, Forall₂ S.nodes ns ns' →
    (∃ xs, literals ns = .ok xs ∧ literals ns' = .ok xs) ∨
    ∃ t t', S.tags t t' ∧ literals ns = .error (.malformed .notLiteral t.span) ∧
      literals ns' = .error (.malformed .notLiteral t'.span)
  | [], _, .nil => .inl ⟨[], rfl, rfl⟩
  | _ :: _, _, .cons hn hns => by
    unfold literals
    obtain ⟨x, hx, hy⟩ | ⟨t, t', ht, hx, hy⟩ := literal_cases hn <;> rw [hx, hy]
    · obtain ⟨xs, hxs, hys⟩ | ⟨t, t', ht, hxs, hys⟩ := literals_cases hns <;> rw [hxs, hys]
      · exact .inl ⟨x :: xs, rfl, rfl⟩
      · exact .inr ⟨t, t', ht, rfl, rfl⟩
    · exact .inr ⟨t, t', ht, rfl, rfl⟩

end

theorem lowerOther (h : S.nodes n n') : S.rel (Forall₂ S.same)
    (do
      Lowering.visit n.id .emitted
      if n.isLiteral then
        match literal n with
        | .ok x => return [.ldv x]
        | .error e => throw e
      else throw (.malformed .statementAsValue n.span) : Lowering Code)
    (do
      Lowering.visit n'.id .emitted
      if n'.isLiteral then
        match literal n' with
        | .ok x => return [.ldv x]
        | .error e => throw e
      else throw (.malformed .statementAsValue n'.span) : Lowering Code) := by
  rw [(S.paired h).isLiteral_eq]
  refine S.bind (S.visit _ (S.tag h)) fun _ _ _ => ?_
  by_cases hliteral : n'.isLiteral
  · simp only [hliteral, if_true]
    obtain ⟨x, hx, hy⟩ | ⟨t, t', ht, hx, hy⟩ := S.literal_cases h <;> rw [hx, hy]
    · exact S.ret (S.refl _)
    · exact S.malformed _ ht
  · simp only [hliteral]
    exact S.malformed _ (S.tag h)

mutual

theorem lowerValue (hc : S.contexts c c') : ∀ {n n' : Node}, S.nodes n n' →
    S.rel (Forall₂ S.same) (lowerValue c n) (lowerValue c' n')
  | .ident .., _, h => by
    cases S.paired h with
    | ident ht hname =>
      simp only [Lowering.lowerValue]
      refine S.bind (S.visit _ ht) fun _ _ _ => S.bind (S.loadName hc hname ht) ?_
      rintro i _ rfl
      exact S.ret (S.refl _)
  | .binary .., _, h => by
    cases S.paired h with
    | binary ht hl hr =>
      simp only [Lowering.lowerValue]
      refine S.bind (S.visit _ ht) fun _ _ _ => S.bind (S.arithmetic _ hc ht hl hr) fun i j hij => ?_
      refine S.bind (lowerValue hc hr) fun a a' ha => S.bind (lowerValue hc hl) fun b b' hb => S.ret ?_
      exact rel_append (rel_append ha hb) (.cons hij .nil)
  | .comparison _ _ op _, _, h => by
    cases S.paired h with
    | comparison ht hl hr =>
      simp only [Lowering.lowerValue]
      refine S.bind (S.visit _ ht) fun _ _ _ => ?_
      cases Instruction.comparison? op with
      | none => exact S.unknownOperator op ht
      | some i =>
        refine S.bind (lowerValue hc hr) fun a a' ha => S.bind (lowerValue hc hl) fun b b' hb => S.ret ?_
        exact rel_append (rel_append ha hb) (S.refl _)
  | .call .., _, h => by
    cases S.paired h with
    | call ht hname hargs =>
      simp only [Lowering.lowerValue]
      refine S.bind (S.visit _ ht) fun _ _ _ => S.bind (lowerValues hc hargs) fun a a' ha => ?_
      refine S.bind (S.finishCall hc ht hname hargs) ?_
      rintro b _ rfl
      exact S.ret (rel_append ha (S.refl _))
  | .access .., _, h => by
    cases S.paired h with
    | access ht hname hindex =>
      simp only [Lowering.lowerValue]
      refine S.bind (S.visit _ ht) fun _ _ _ => S.bind (lowerValue hc hindex) fun a a' ha => ?_
      refine S.bind (S.loadName hc hname ht) ?_
      rintro i _ rfl
      exact S.ret (rel_append ha (S.refl _))
  | .lambda .., _, h => by
    cases S.paired h with
    | lambda ht _ =>
      simp only [Lowering.lowerValue]
      exact S.bind (S.visit _ ht) fun _ _ _ => S.ret (S.refl _)
  | .int .., _, h | .float .., _, h | .str .., _, h | .list .., _, h | .decl .., _, h | .letIn .., _, h
  | .ifThen .., _, h | .ifElse .., _, h | .ifElseIf .., _, h | .block .., _, h | .funDecl .., _, h | .print .., _, h
  | .ret .., _, h => by
    have hother := S.lowerOther h
    cases S.paired h
    all_goals exact hother

theorem lowerValues (hc : S.contexts c c') : ∀ {ns ns' : List Node}, Forall₂ S.nodes ns ns' →
    S.rel (Forall₂ S.same) (lowerValues c ns) (lowerValues c' ns')
  | [], _, .nil => S.ret (S.refl _)
  | _ :: _, _, .cons hn hns => by
    simp only [Lowering.lowerValues]
    exact S.bind (lowerValue hc hn) fun a a' ha => S.bind (lowerValues hc hns) fun b b' hb => S.ret (rel_append ha hb)

end

/-! ## Statements -/

theorem once {P : Code → Code → Prop} (hnil : P [] []) (ht : S.tags t t') {x y : Lowering Code} (h : S.rel P x y) :
    S.rel P (once t.id x) (once t'.id y) := by
  refine S.bind S.read fun s s' hs => S.bind (S.visit _ ht) fun _ _ _ => ?_
  rw [hs.1 ht]
  by_cases hv : s'.visits[t'.id]? = some .emitted
  · simp only [hv, if_true]
    exact S.ret hnil
  · simp only [hv, if_false]
    exact h

theorem finishChain {chain chain' : Chain} (h : chain.Alike S.same chain') :
    S.rel (Forall₂ S.same) (finishChain chain) (finishChain chain') := by
  unfold Lowering.finishChain
  rw [Chain.code_eq_layout, Chain.code_eq_layout]
  exact S.ret (h.layout S.same_refl S.isRet_eq)

theorem skipped (hc : S.contexts c c') (h : S.nodes n n') :
    S.rel (Forall₂ S.same) (Lowering.once n.id (Lowering.skip c n)) (Lowering.once n'.id (Lowering.skip c' n')) := by
  refine S.once .nil (S.tag h) (S.imp (S.skip hc h) ?_)
  rintro a _ rfl
  exact S.refl a

mutual

theorem lowerStmt (hc : S.contexts c c') : ∀ {n n' : Node}, S.nodes n n' →
    S.rel (Forall₂ S.same) (lowerStmt c n) (lowerStmt c' n')
  | .decl .., _, h => by
    cases S.paired h with
    | decl ht hname hv =>
      simp only [Lowering.lowerStmt]
      refine S.once .nil ht (S.bind (S.lowerValue hc hv) fun a a' ha => S.bind (S.bindName hc hname hv) ?_)
      rintro slot _ rfl
      exact S.ret (rel_append ha (S.refl _))
  | .letIn .., _, h => by
    cases S.paired h with
    | letIn ht hds hb =>
      simp only [Lowering.lowerStmt]
      refine S.once .nil ht (S.bind (lowerStmts hc hds) fun a a' ha => S.bind (lowerStmt hc hb) fun b b' hb => S.ret ?_)
      exact rel_append ha hb
  | .block .., _, h => by
    cases S.paired h with
    | block ht hs =>
      simp only [Lowering.lowerStmt]
      exact S.once .nil ht (lowerStmts hc hs)
  | .ifThen .., _, h => by
    cases S.paired h with
    | ifThen ht htest hb =>
      simp only [Lowering.lowerStmt]
      refine S.once .nil ht (S.bind (S.lowerValue hc htest) fun a a' ha => S.bind (lowerStmt hc hb) fun b b' hb => ?_)
      exact S.finishChain (.branch ha hb .done)
  | .ifElse .., _, h => by
    cases S.paired h with
    | ifElse ht htest hb ho =>
      simp only [Lowering.lowerStmt]
      refine S.once .nil ht (S.bind (S.lowerValue hc htest) fun a a' ha => S.bind (lowerStmt hc hb) fun b b' hb => ?_)
      exact S.bind (lowerStmt hc ho) fun d d' hd => S.finishChain (.branch ha hb (.otherwise hd))
  | .ifElseIf .., _, h => by
    cases S.paired h with
    | ifElseIf ht htest hb hl =>
      simp only [Lowering.lowerStmt]
      refine S.once .nil ht (S.bind (S.lowerValue hc htest) fun a a' ha => S.bind (lowerStmt hc hb) fun b b' hb => ?_)
      exact S.bind (lowerLink hc hl) fun d d' hd => S.finishChain (.branch ha hb hd)
  | .print .., _, h => by
    cases S.paired h with
    | print ht hargs =>
      simp only [Lowering.lowerStmt]
      exact S.once .nil ht (S.bind (S.lowerValues hc hargs) fun a a' ha => S.ret (rel_append ha (S.refl _)))
  | .ret .., _, h => by
    cases S.paired h with
    | ret ht hv =>
      simp only [Lowering.lowerStmt]
      refine S.once .nil ht (S.bind (S.lowerValue hc hv) fun a a' ha => S.ret ?_)
      rw [Code.endsInRet_eq S.isRet_eq ha]
      by_cases hret : a'.endsInRet
      · rw [if_pos hret, if_pos hret]
        exact ha
      · rw [if_neg hret, if_neg hret]
        exact rel_append ha (S.refl _)
  | .call .., _, h | .binary .., _, h | .comparison .., _, h => by
    have hvalue := S.once .nil (S.tag h) (S.lowerValue hc h)
    cases S.paired h
    all_goals exact hvalue
  | .funDecl .., _, h => by
    have hnone := S.once (P := Forall₂ S.same) .nil (S.tag h) (S.ret .nil)
    cases S.paired h with
    | funDecl ht => exact hnone
  | .int .., _, h | .float .., _, h | .str .., _, h | .ident .., _, h | .list .., _, h | .access .., _, h
  | .lambda .., _, h => by
    have hskipped := S.skipped hc h
    cases S.paired h
    all_goals exact hskipped

theorem lowerStmts (hc : S.contexts c c') : ∀ {ns ns' : List Node}, Forall₂ S.nodes ns ns' →
    S.rel (Forall₂ S.same) (lowerStmts c ns) (lowerStmts c' ns')
  | [], _, .nil => S.ret .nil
  | _ :: _, _, .cons hn hns => by
    simp only [Lowering.lowerStmts]
    exact S.bind (lowerStmt hc hn) fun a a' ha => S.bind (lowerStmts hc hns) fun b b' hb => S.ret (rel_append ha hb)

theorem lowerLink (hc : S.contexts c c') : ∀ {n n' : Node}, S.nodes n n' →
    S.rel (Chain.Alike S.same) (lowerLink c n) (lowerLink c' n')
  | .ifThen .., _, h => by
    cases S.paired h with
    | ifThen ht htest hb =>
      simp only [Lowering.lowerLink]
      refine S.bind (S.visit _ ht) fun _ _ _ => S.bind (S.lowerValue hc htest) fun a a' ha => ?_
      exact S.bind (lowerStmt hc hb) fun b b' hb => S.ret (.branch ha hb .done)
  | .ifElse .., _, h => by
    cases S.paired h with
    | ifElse ht htest hb ho =>
      simp only [Lowering.lowerLink]
      refine S.bind (S.visit _ ht) fun _ _ _ => S.bind (S.lowerValue hc htest) fun a a' ha => ?_
      refine S.bind (lowerStmt hc hb) fun b b' hb => S.bind (lowerStmt hc ho) fun d d' hd => S.ret ?_
      exact .branch ha hb (.otherwise hd)
  | .ifElseIf .., _, h => by
    cases S.paired h with
    | ifElseIf ht htest hb hl =>
      simp only [Lowering.lowerLink]
      refine S.bind (S.visit _ ht) fun _ _ _ => S.bind (S.lowerValue hc htest) fun a a' ha => ?_
      exact S.bind (lowerStmt hc hb) fun b b' hb => S.bind (lowerLink hc hl) fun d d' hd => S.ret (.branch ha hb hd)
  | .int .., _, h | .float .., _, h | .str .., _, h | .ident .., _, h | .list .., _, h | .access .., _, h
  | .lambda .., _, h | .decl .., _, h | .letIn .., _, h | .block .., _, h | .funDecl .., _, h | .print .., _, h
  | .ret .., _, h | .call .., _, h | .binary .., _, h | .comparison .., _, h => by
    have hnot := S.notConditional (P := Chain.Alike S.same) h
    cases S.paired h
    all_goals exact hnot

end

/-! ## Functions -/

theorem lowerSequence (hc : S.contexts c c') {later later' : List Node} (hlater : Forall₂ S.nodes later later') :
    ∀ {ns ns' : List Node}, Forall₂ S.nodes ns ns' →
      S.rel (Forall₂ S.same) (lowerSequence c later ns) (lowerSequence c' later' ns') := by
  intro ns ns' h
  induction h with
  | nil => exact S.ret .nil
  | @cons n n' rest rest' hn hrest ih =>
    unfold Lowering.lowerSequence
    refine S.bind S.read fun s s' hs => ?_
    have hvisits : s.visits.contains n.id = s'.visits.contains n'.id := by
      rw [Std.TreeMap.contains_eq_isSome_getElem?, Std.TreeMap.contains_eq_isSome_getElem?]
      exact congrArg _ (hs.1 (S.tag hn))
    rw [hvisits, S.isConsumed_eq hn (rel_append hrest hlater)]
    by_cases hvisited : s'.visits.contains n'.id
    · rw [if_pos hvisited, if_pos hvisited]
      exact ih
    · rw [if_neg hvisited, if_neg hvisited]
      by_cases hconsumed : isConsumed n' (rest' ++ later')
      · rw [if_pos hconsumed, if_pos hconsumed]
        exact S.bind (S.visit _ (S.tag hn)) fun _ _ _ => ih
      · rw [if_neg hconsumed, if_neg hconsumed]
        exact S.bind (S.lowerStmt hc hn) fun a a' ha => S.bind ih fun b b' hb => S.ret (rel_append ha hb)

theorem lowerFunction {later later' : List Node} (hlater : Forall₂ S.nodes later later') {r r' : FunctionRecord}
    (h : r.Paired S.labels S.nodes r') : S.rel (FunctionCode.Paired S.labels S.same) (lowerFunction table o later r)
      (lowerFunction table' o' later' r') := by
  obtain ⟨id, name, params, parent, sequence⟩ := r
  obtain ⟨rfl, hlabels, rfl, rfl, hsequence⟩ := h
  refine S.bind (S.start _ hlabels) fun _ _ _ => S.bind (S.lowerSequence (S.context _) hlater hsequence) fun a a' ha =>
    S.ret ⟨rfl, hlabels, rfl, rfl, ?_⟩
  show Forall₂ S.same (if r'.id = 0 then a ++ [.hlt] else a) (if r'.id = 0 then a' ++ [.hlt] else a')
  by_cases hmain : r'.id = 0
  · rw [if_pos hmain, if_pos hmain]
    exact rel_append ha (S.refl _)
  · rw [if_neg hmain, if_neg hmain]
    exact ha

theorem sequences {rs rs' : List FunctionRecord} (h : Forall₂ (FunctionRecord.Paired S.labels S.nodes) rs rs') :
    Forall₂ S.nodes (rs.flatMap (·.sequence)) (rs'.flatMap (·.sequence)) := by
  induction h with
  | nil => exact .nil
  | cons hr _ ih => exact rel_append hr.sequence ih

theorem lowerFunctions {rs rs' : List FunctionRecord}
    (h : Forall₂ (FunctionRecord.Paired S.labels S.nodes) rs rs') :
    S.rel (Forall₂ (FunctionCode.Paired S.labels S.same)) (lowerFunctions table o rs)
      (lowerFunctions table' o' rs') := by
  induction h with
  | nil => exact S.ret .nil
  | cons hr hrs ih =>
    unfold Lowering.lowerFunctions
    exact S.bind (S.lowerFunction (S.sequences hrs) hr) fun f f' hf => S.bind ih fun fs fs' hfs => S.ret (.cons hf hfs)

theorem lower : S.rel (fun a b => Forall₂ (FunctionCode.Paired S.labels S.same) a.functions b.functions ∧
      S.skips a.skipped b.skipped) (lower table o) (lower table' o') :=
  S.bind (S.lowerFunctions S.records) fun _ _ hfs => S.bind S.read fun _ _ hs => S.ret ⟨hfs, hs.2⟩

end Simulation
end Lowering
end Bies
