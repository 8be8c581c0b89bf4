import Bies.Proofs.LoadingSimulation

/-!
# Runs side by side

Two runs of lowering on one table, perhaps under different options, take the same steps. A `Lockstep` is a
relation between two computations that holds for each single step and is kept when steps follow each other. A
table has the shape of itself, so a lockstep is a simulation and holds for the runs as a whole.
-/

namespace Bies

open List

/-! ## One shape -/

theorem Node.paired_self {n n' : Node} : n = n' ↔ n.Paired Eq (fun _ => True) Eq n' := by
  constructor
  · rintro rfl
    cases n with
    | decl => exact .decl rfl trivial rfl
    | letIn => exact .letIn rfl (forall₂_refl _) rfl
    | binary => exact .binary rfl rfl rfl
    | comparison => exact .comparison rfl rfl rfl
    | ifThen => exact .ifThen rfl rfl rfl
    | ifElse => exact .ifElse rfl rfl rfl rfl
    | ifElseIf => exact .ifElseIf rfl rfl rfl rfl
    | block => exact .block rfl (forall₂_refl _)
    | funDecl => exact .funDecl rfl
    | lambda => exact .lambda rfl rfl
    | call => exact .call rfl trivial (forall₂_refl _)
    | print => exact .print rfl (forall₂_refl _)
    | ret => exact .ret rfl rfl
    | access => exact .access rfl trivial rfl
    | list => exact .list rfl (forall₂_refl _)
    | int => exact .int rfl
    | float => exact .float rfl
    | str => exact .str rfl
    | ident => exact .ident rfl trivial
  · intro h
    cases h <;> simp_all [forall₂_eq_eq_eq]

theorem Expr.paired_self (e : Expr) : e.Paired Eq (fun _ => True) Eq Eq e := by
  cases e with
  | int => exact .int rfl
  | float => exact .float rfl
  | str => exact .str rfl
  | ident => exact .ident rfl trivial
  | arithmetic => exact .arithmetic rfl rfl rfl
  | comparison => exact .comparison rfl rfl rfl
  | call => exact .call rfl trivial (forall₂_refl _)
  | access => exact .access rfl trivial rfl
  | list => exact .list rfl (forall₂_refl _)
  | lambda => exact .lambda rfl (fun _ _ => trivial) rfl
  | malformed => exact .malformed rfl

theorem Body.paired_self (b : Body) : b.Paired Eq Eq Eq b := by
  cases b with
  | block => exact .block rfl (forall₂_refl _)
  | value => exact .value rfl rfl

theorem Stmt.paired_self (s : Stmt) : s.Paired Eq (fun _ => True) Eq Eq Eq s := by
  cases s with
  | decl => exact .decl rfl trivial rfl
  | lambdaDecl => exact .lambdaDecl rfl rfl trivial (fun _ _ => trivial) rfl
  | funDecl => exact .funDecl rfl trivial (fun _ _ => trivial) rfl
  | letIn => exact .letIn rfl rfl (forall₂_refl _) (forall₂_refl _)
  | ifThen => exact .ifThen rfl rfl rfl (forall₂_refl _)
  | ifElse => exact .ifElse rfl rfl rfl rfl (forall₂_refl _) (forall₂_refl _)
  | ifElseIf => exact .ifElseIf rfl rfl rfl (forall₂_refl _) rfl
  | block => exact .block rfl (forall₂_refl _)
  | ret => exact .ret rfl rfl
  | print => exact .print rfl (forall₂_refl _)
  | expr => exact .expr rfl
  | malformed => exact .malformed rfl

/-! ## Lowering -/

structure FunctionCode.Alike (same : Instruction → Instruction → Prop) (f f' : FunctionCode) : Prop where
  id_eq : f.id = f'.id
  name_eq : f.name = f'.name
  arity_eq : f.arity = f'.arity
  parent_eq : f.parent = f'.parent
  code : Forall₂ same f.code f'.code

theorem FunctionCode.eq_of_alike {fs fs' : List FunctionCode} (h : Forall₂ (FunctionCode.Alike Eq) fs fs') :
    fs = fs' := by
  rw [← forall₂_eq_eq_eq]
  refine h.imp fun f f' hf => ?_
  obtain ⟨hid, hname, harity, hparent, hcode⟩ := hf
  rw [forall₂_eq_eq_eq] at hcode
  cases f
  simp_all

namespace Lowering

structure Lockstep (o o' : Options) where
  rel : {α : Type} → (α → α → Prop) → Lowering α → Lowering α → Prop
  bind : ∀ {α β : Type} {P : α → α → Prop} {Q : β → β → Prop} {x y : Lowering α} {f h : α → Lowering β},
    rel P x y → (∀ a b, P a b → rel Q (f a) (h b)) → rel Q (x >>= f) (y >>= h)
  ret : ∀ {α : Type} {P : α → α → Prop} {a b : α}, P a b → rel P (pure a) (pure b)
  fail : ∀ {α : Type} {P : α → α → Prop} (e : CompileError), rel P (throw e) (throw e)
  /-- Which instructions may stand for each other. -/
  same : Instruction → Instruction → Prop
  same_refl : ∀ i, same i i
  isRet_eq : ∀ {i j}, same i j → i.isRet = j.isRet
  read : rel (fun s t => s.visits = t.visits ∧ s.skipped = t.skipped) get get
  visit : ∀ (id : NodeId) (v : Visit), rel (fun _ _ => True) (visit id v) (visit id v)
  start : ∀ (f : FunctionId) (name : String),
    rel (fun _ _ => True) (note (.loweringFunction f name)) (note (.loweringFunction f name))
  skip : ∀ (c : Context) (n : Node), rel Eq (skip c n) (skip { c with options := o' } n)
  bindName : ∀ (c : Context) (name : String) (value : Node),
    rel Eq (Lowering.bind c name (some value)) (Lowering.bind { c with options := o' } name (some value))
  loadName : ∀ {c : Context}, c.options = o → ∀ (name : String) (span : Span),
    rel Eq (loadName c name span) (loadName { c with options := o' } name span)
  arithmetic : ∀ {c : Context}, c.options = o → ∀ (tag : Tag) (left : Node) (op : String) (right : Node),
    rel same (arithmeticInstruction c tag left op right)
      (arithmeticInstruction { c with options := o' } tag left op right)
  finishCall : ∀ {c : Context}, c.options = o → ∀ (tag : Tag) (name : String) (args : List Node),
    rel Eq (finishCall c tag name args) (finishCall { c with options := o' } tag name args)

namespace Lockstep

variable {o o' : Options} (L : Lockstep o o') (table : FunctionTable)

theorem imp {α : Type} {P Q : α → α → Prop} {x y : Lowering α} (hx : L.rel P x y)
    (h : ∀ a b, P a b → Q a b) : L.rel Q x y := by
  have := L.bind hx fun a b hab => L.ret (h a b hab)
  rwa [bind_pure, bind_pure] at this

def simulation : Simulation table table o o' where
  rel := L.rel
  bind := L.bind
  ret := L.ret
  tags := Eq
  names _ := True
  nodes := Eq
  labels := Eq
  contexts c c' := c.options = o ∧ c' = { c with options := o' }
  skips := Eq
  same := L.same
  same_refl := L.same_refl
  isRet_eq := L.isRet_eq
  paired := Node.paired_self.mp
  ids ht hu := by rw [ht, hu]
  records := forall₂_same.mpr fun _ _ => ⟨rfl, rfl, rfl, rfl, forall₂_refl _⟩
  context _ := ⟨rfl, rfl⟩
  malformed fault ht := ht ▸ L.fail (.malformed fault _)
  unknownOperator op ht := ht ▸ L.fail (.unknownOperator op _)
  notConditional hn := hn ▸ L.fail (.internal _)
  read := L.imp L.read fun s t hst => ⟨fun ht => by rw [hst.1, ht], hst.2⟩
  visit v ht := ht ▸ L.visit _ v
  start f _ _ h := h ▸ L.start f _
  skip hc hn := hc.2 ▸ hn ▸ L.skip _ _
  bindName hc _ hv := hc.2 ▸ hv ▸ L.bindName _ _ _
  loadName hc _ ht := hc.2 ▸ ht ▸ L.loadName hc.1 _ _
  arithmetic op hc ht hl hr := by
    rw [hc.2, ← ht, ← hl, ← hr]
    exact L.arithmetic hc.1 _ _ op _
  finishCall hc ht _ hargs := by
    rw [forall₂_eq_eq_eq] at hargs
    rw [hc.2, ← ht, ← hargs]
    exact L.finishCall hc.1 _ _ _

theorem lower :
    L.rel (fun a b => Forall₂ (FunctionCode.Alike L.same) a.functions b.functions ∧
      a.skipped = b.skipped) (lower table o) (lower table o') := by
  refine L.imp (L.simulation table).lower fun a b hab => ⟨hab.1.imp fun f f' hf => ?_, hab.2⟩
  exact ⟨hf.id_eq, hf.labels, hf.arity_eq, hf.parent_eq, hf.code⟩

end Lockstep
end Lowering
end Bies
