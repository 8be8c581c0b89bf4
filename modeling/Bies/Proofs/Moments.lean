import Bies.Proofs.Code
import Mathlib.Data.List.Forall2

/-!
# Lowering, moment by moment

Lowering that gives, in the place of code, the variables that the instructions read and write, in order
and with the frames of that moment. The frames change at these moments and at calls, which have one of
their own. It is a recursion of its own because code keeps no frames, and agrees with lowering on loaded
tables only.
-/

namespace Bies

def Instruction.isAccess : Instruction → Bool
  | .bld .. | .bst .. => true
  | _ => false

namespace Lowering

structure Moment where
  frames : Frames
  /-- The instruction that reads or writes a variable, and the variable. -/
  access : Option (Instruction × String)

namespace Traced

def moment (access : Option (Instruction × String)) : Lowering (List Moment) := do
  return [⟨(← get).frames, access⟩]

def both (x y : Lowering (List Moment)) : Lowering (List Moment) := do
  return (← x) ++ (← y)

def load (c : Context) (name : String) (span : Span) : Lowering (List Moment) := do
  let i ← loadName c name span
  if i.isAccess then moment (some (i, name)) else return []

def store (c : Context) (name : String) (value : Node) : Lowering (List Moment) := do
  let slot ← bind c name (some value)
  moment (some (.bst 0 slot, name))

def call (c : Context) (tag : Tag) (name : String) (args : List Node) : Lowering (List Moment) := do
  if isBuiltin c (← get).frames name then
    if name = lenName then return []
    else
      let line := s!"{inputName}#{tag.id}"
      let slot ← bind c line (some (.call tag name args))
      both (moment (some (.bst 0 slot, line))) (moment (some (.bld 0 slot, line)))
  else
    both (load c name tag.span) do
      if let some callee := c.table.get? name then
        modify fun s =>
          { s with frames := s.frames.seed callee.id (parameterValues c s.frames callee args) }
      moment none

mutual

def value (c : Context) : Node → Lowering (List Moment)
  | .ident tag name => do
    visit tag.id .emitted
    load c name tag.span
  | .binary tag left op right => do
    visit tag.id .emitted
    let _ ← arithmeticInstruction c tag left op right
    both (value c right) (value c left)
  | .comparison tag left _ right => do
    visit tag.id .emitted
    both (value c right) (value c left)
  | .call tag name args => do
    visit tag.id .emitted
    both (values c args) (call c tag name args)
  | .access tag name index => do
    visit tag.id .emitted
    both (value c index) (load c name tag.span)
  | n => do
    visit n.id .emitted
    return []

def values (c : Context) : List Node → Lowering (List Moment)
  | [] => return []
  | n :: rest => both (value c n) (values c rest)

end

mutual

def stmt (c : Context) : Node → Lowering (List Moment)
  | .decl tag _ name v => once tag.id (both (value c v) (store c name v))
  | .letIn tag decls body => once tag.id (both (stmts c decls) (stmt c body))
  | .block tag statements => once tag.id (stmts c statements)
  | .ifThen tag test body => once tag.id (both (value c test) (stmt c body))
  | .ifElse tag test body other => once tag.id (both (value c test) (both (stmt c body) (stmt c other)))
  | .ifElseIf tag test body link => once tag.id (both (value c test) (both (stmt c body) (chain c link)))
  | .print tag args => once tag.id (values c args)
  | .ret tag v => once tag.id (value c v)
  | .call tag name args => once tag.id (value c (.call tag name args))
  | .binary tag left op right => once tag.id (value c (.binary tag left op right))
  | .comparison tag left op right => once tag.id (value c (.comparison tag left op right))
  | .funDecl tag .. => once tag.id (return [])
  | n => once n.id do
    let _ ← skip c n
    return []

def stmts (c : Context) : List Node → Lowering (List Moment)
  | [] => return []
  | n :: rest => both (stmt c n) (stmts c rest)

def chain (c : Context) : Node → Lowering (List Moment)
  | .ifThen tag test body => do
    visit tag.id .emitted
    both (value c test) (stmt c body)
  | .ifElse tag test body other => do
    visit tag.id .emitted
    both (value c test) (both (stmt c body) (stmt c other))
  | .ifElseIf tag test body link => do
    visit tag.id .emitted
    both (value c test) (both (stmt c body) (chain c link))
  | _ => return []

end

def sequence (c : Context) (later : List Node) : List Node → Lowering (List Moment)
  | [] => return []
  | n :: rest => do
    if (← get).visits.contains n.id then sequence c later rest
    else if isConsumed n (rest ++ later) then
      visit n.id .deferred
      sequence c later rest
    else both (stmt c n) (sequence c later rest)

end Traced

/-- The lowering of a function, with the frames from which it started. -/
structure Course where
  function : FunctionId
  start : Frames
  moments : List Moment

def Course.frames (t : Course) : List Frames := t.start :: t.moments.map (·.frames)

def accesses (ms : List Moment) : Code := ms.filterMap fun m => m.access.map (·.1)

namespace Traced

def function (table : FunctionTable) (options : Options) (later : List Node) (r : FunctionRecord) :
    Lowering Course := do
  note (.loweringFunction r.id r.name)
  let start := (← get).frames
  return ⟨r.id, start, ← sequence ⟨table, options, r.id, table.chain r.id⟩ later r.sequence⟩

def functions (table : FunctionTable) (options : Options) : List FunctionRecord → Lowering (List Course)
  | [] => return []
  | r :: rest => do
    let t ← function table options (rest.flatMap (·.sequence)) r
    return t :: (← functions table options rest)

end Traced

/-! ## The moments are those of lowering -/

/-- Where `y` gives a result, `x` gives one that `R` relates to it, and comes to the same state. -/
def Follows {α β : Type} (R : α → β → Prop) (x : Lowering α) (y : Lowering β) : Prop :=
  ∀ s b s', y.run s = .ok b s' → ∃ a, x.run s = .ok a s' ∧ R a b

namespace Follows

variable {α β γ δ : Type} {R : α → β → Prop} {Q : γ → δ → Prop}

section
variable {x : Lowering α} {y : Lowering β} {f : α → Lowering γ}

theorem bind {g : β → Lowering δ} (hx : Follows R x y)
    (hf : ∀ a b, R a b → Follows Q (f a) (g b)) : Follows Q (x >>= f) (y >>= g) := by
  intro s d s' h
  obtain ⟨b, s₁, hb, hd⟩ := bind_eq_ok.mp h
  obtain ⟨a, ha, hab⟩ := hx _ _ _ hb
  obtain ⟨e, he, hed⟩ := hf a b hab _ _ _ hd
  exact ⟨e, bind_eq_ok.mpr ⟨a, s₁, ha, he⟩, hed⟩

theorem same (x : Lowering α) : Follows Eq x x := fun _ a _ h => ⟨a, h, rfl⟩

theorem after {g : α → Lowering δ} (hf : ∀ a, Follows Q (f a) (g a)) :
    Follows Q (x >>= f) (x >>= g) :=
  .bind (.same x) fun a _ h => h ▸ hf a

theorem ret {a : α} {b : β} (h : R a b) : Follows R (pure a) (pure b) := by
  intro s b' s' hb
  obtain ⟨rfl, rfl⟩ := pure_eq_ok.mp hb
  exact ⟨a, rfl, h⟩

theorem map {Q : α → γ → Prop} {g : β → γ} (hx : Follows R x y)
    (h : ∀ a b, R a b → Q a (g b)) : Follows Q x (y >>= fun b => pure (g b)) := by
  intro s b s' hb
  obtain ⟨b, s₁, hy, hg⟩ := bind_eq_ok.mp hb
  obtain ⟨rfl, rfl⟩ := pure_eq_ok.mp hg
  obtain ⟨a, ha, hab⟩ := hx _ _ _ hy
  exact ⟨a, ha, h a b hab⟩

theorem fail {e : CompileError} : Follows R x (throw e) :=
  fun _ _ _ h => absurd h throw_ne_ok

end

end Follows

def Marks (ms : List Moment) (code : Code) : Prop := accesses ms = code.filter Instruction.isAccess

theorem Marks.nil : Marks [] [] := rfl

section
variable {ms : List Moment} {i : Instruction} {β : Type} {x : Lowering (List Moment)}

theorem Marks.append {ms' : List Moment} {code code' : Code} (h : Marks ms code) (h' : Marks ms' code') :
    Marks (ms ++ ms') (code ++ code') := by
  unfold Marks accesses at *
  rw [List.filterMap_append, List.filter_append, h, h']

theorem Marks.silent {code : Code} (h : Marks ms code) (hi : i.isAccess = false) :
    Marks ms (code ++ [i]) := by
  unfold Marks at *
  rw [List.filter_append, h]
  simp [hi]

theorem marks_layout {test body rest : List Moment} {testCode bodyCode : Code} {chain : Chain}
    (htest : Marks test testCode) (hbody : Marks body bodyCode) (hrest : Marks rest chain.layout) :
    Marks (test ++ (body ++ rest)) (Chain.branch testCode bodyCode chain).layout := by
  have hleave : (Chain.leave bodyCode chain chain.layout.length).filter Instruction.isAccess = [] := by
    unfold Chain.leave
    split <;> rfl
  unfold Marks accesses at *
  simp [Chain.layout, hleave, Instruction.isAccess, htest, hbody, hrest]

theorem follows_both {γ : Type} {R : List Moment → β → Prop} {Q : List Moment → γ → Prop}
    {y : Lowering (List Moment)} {x' : Lowering β} {f : β → Lowering γ} (hx : Follows R x x')
    (hy : ∀ ms b, R ms b → Follows (fun ms' => Q (ms ++ ms')) y (f b)) : Follows Q (Traced.both x y) (x' >>= f) := by
  refine .bind hx fun ms b hb s r s' hr => ?_
  obtain ⟨ms', hms', hq⟩ := hy ms b hb s r s' hr
  exact ⟨ms ++ ms', bind_eq_ok.mpr ⟨ms', s', hms', rfl⟩, hq⟩

theorem follows_moment {Q : List Moment → β → Prop} {access : Option (Instruction × String)} {b : β}
    (h : ∀ frames, Q [⟨frames, access⟩] b) : Follows Q (Traced.moment access) (pure b) := by
  intro s b' s' hb
  obtain ⟨rfl, rfl⟩ := pure_eq_ok.mp hb
  exact ⟨[⟨s.frames, access⟩], rfl, h s.frames⟩

theorem follows_once {id : NodeId} {y : Lowering Code} (h : Follows Marks x y) :
    Follows Marks (once id x) (once id y) := by
  unfold once
  refine .after fun s => .after fun _ => ?_
  split
  · exact .ret .nil
  · exact h

theorem follows_load (c : Context) (name : String) (span : Span) :
    Follows (fun ms i => Marks ms [i]) (Traced.load c name span) (loadName c name span) := by
  intro s i s' h
  unfold Traced.load
  by_cases hi : i.isAccess = true
  · refine ⟨[⟨s'.frames, some (i, name)⟩], bind_eq_ok.mpr ⟨i, s', h, ?_⟩, by simp [Marks, accesses, hi]⟩
    rw [if_pos hi]
    rfl
  · refine ⟨[], bind_eq_ok.mpr ⟨i, s', h, ?_⟩, by simp [Marks, accesses, hi]⟩
    rw [if_neg hi]
    rfl

theorem follows_finishCall (c : Context) (tag : Tag) (name : String) (args : List Node) :
    Follows Marks (Traced.call c tag name args) (finishCall c tag name args) := by
  unfold Traced.call finishCall
  refine .after fun s => ?_
  split
  · split
    · exact .ret rfl
    · refine .after fun slot s code s' h => ?_
      obtain ⟨rfl, rfl⟩ := pure_eq_ok.mp h
      refine ⟨_, rfl, ?_⟩
      split <;> rfl
  · refine follows_both (follows_load c name tag.span) fun ms i hms => ?_
    have hlast : Follows (fun ms' => Marks (ms ++ ms')) (Traced.moment none) (pure [i, .app args.length]) :=
      follows_moment fun _ => hms.append (show Marks [_] [.app args.length] from rfl)
    cases c.table.get? name with
    | some callee => exact .after fun _ => hlast
    | none => exact hlast

theorem isAccess_of_isOperation (h : i.isOperation = true) : i.isAccess = false := by
  cases i <;> first | rfl | cases h

end

theorem follows_arithmeticInstruction (c : Context) (tag : Tag) (left : Node) (op : String) (right : Node) :
    Follows (fun _ i => i.isAccess = false) (arithmeticInstruction c tag left op right)
      (arithmeticInstruction c tag left op right) :=
  fun _ i _ h => ⟨i, h, isAccess_of_isOperation (arithmeticInstruction_eq_ok h).1⟩

mutual

theorem lowerValue_follows (c : Context) : ∀ n : Node, Follows Marks (Traced.value c n) (lowerValue c n)
  | .ident tag name => by
    unfold Traced.value lowerValue
    exact .after fun _ => .map (follows_load c name tag.span) fun _ _ h => h
  | .binary tag left op right => by
    unfold Traced.value lowerValue
    refine .after fun _ => .bind (follows_arithmeticInstruction c tag left op right) fun _ i hi => ?_
    exact follows_both (lowerValue_follows c right) fun _ _ hright => .map (lowerValue_follows c left) fun _ _ hleft =>
      (hright.append hleft).silent hi
  | .comparison _ left _ right => by
    unfold Traced.value lowerValue
    refine .after fun _ => ?_
    split
    · exact .fail
    next i hi =>
      exact follows_both (lowerValue_follows c right) fun _ _ hright => .map (lowerValue_follows c left) fun _ _ hleft =>
        (hright.append hleft).silent (isAccess_of_isOperation (comparison?_isOperation hi))
  | .call tag name args => by
    unfold Traced.value lowerValue
    exact .after fun _ => follows_both (lowerValues_follows c args) fun _ _ hargs =>
      .map (follows_finishCall c tag name args) fun _ _ hcall => hargs.append hcall
  | .access tag name index => by
    unfold Traced.value lowerValue
    exact .after fun _ => follows_both (lowerValue_follows c index) fun _ _ hindex =>
      .map (follows_load c name tag.span) fun _ i hload => hindex.append (hload.silent (i := .ltk) rfl)
  | .lambda .. => by
    unfold Traced.value lowerValue
    exact .after fun _ => .ret rfl
  | .int .. | .float .. | .str .. | .list .. | .decl .. | .funDecl .. | .letIn .. | .block .. | .ifThen .. | .ifElse ..
  | .ifElseIf .. | .ret .. | .print .. => by
    unfold Traced.value lowerValue
    refine .after fun _ => ?_
    split
    · split
      · exact .ret rfl
      · exact .fail
    · exact .fail

theorem lowerValues_follows (c : Context) : ∀ ns : List Node, Follows Marks (Traced.values c ns) (lowerValues c ns)
  | [] => by
    unfold Traced.values lowerValues
    exact .ret .nil
  | n :: rest => by
    unfold Traced.values lowerValues
    exact follows_both (lowerValue_follows c n) fun _ _ hn => .map (lowerValues_follows c rest) fun _ _ hrest =>
      hn.append hrest

end

theorem finishChain_eq (chain : Chain) : finishChain chain = pure chain.layout := by
  unfold finishChain
  rw [Chain.code_eq_layout]

theorem marks_branch {test body : List Moment} {testCode bodyCode : Code} (htest : Marks test testCode)
    (hbody : Marks body bodyCode) : Marks (test ++ body) (Chain.branch testCode bodyCode .done).layout := by
  have hdone : Marks [] Chain.done.layout := rfl
  simpa using marks_layout htest hbody hdone

theorem follows_skip (c : Context) (n : Node) :
    Follows Marks (skip c n >>= fun _ => pure []) (skip c n) := by
  intro s code s' h
  have hcode : code = [] := (Gives.bind_any fun _ => .bind_any fun _ => .ret rfl : Gives (skip c n) (· = [])) s _ s' h
  exact ⟨[], bind_eq_ok.mpr ⟨code, s', h, rfl⟩, hcode ▸ .nil⟩

mutual

theorem lowerStmt_follows (c : Context) : ∀ n : Node, Follows Marks (Traced.stmt c n) (lowerStmt c n)
  | .decl _ _ name value => by
    unfold Traced.stmt lowerStmt Traced.store
    exact follows_once (follows_both (lowerValue_follows c value) fun _ _ hvalue => .after fun slot =>
      follows_moment fun _ => hvalue.append (show Marks [_] [.bst 0 slot] from rfl))
  | .letIn _ decls body => by
    unfold Traced.stmt lowerStmt
    exact follows_once (follows_both (lowerStmts_follows c decls) fun _ _ hdecls =>
      .map (lowerStmt_follows c body) fun _ _ hbody => hdecls.append hbody)
  | .block _ statements => by
    unfold Traced.stmt lowerStmt
    exact follows_once (lowerStmts_follows c statements)
  | .ifThen _ test body => by
    unfold Traced.stmt lowerStmt
    simp only [finishChain_eq]
    exact follows_once (follows_both (lowerValue_follows c test) fun _ _ htest =>
      .map (lowerStmt_follows c body) fun _ _ hbody => marks_branch htest hbody)
  | .ifElse _ test body other => by
    unfold Traced.stmt lowerStmt
    simp only [finishChain_eq]
    exact follows_once (follows_both (lowerValue_follows c test) fun _ _ htest =>
      follows_both (lowerStmt_follows c body) fun _ _ hbody => .map (lowerStmt_follows c other) fun _ _ hother =>
        marks_layout htest hbody (show Marks _ (Chain.otherwise _).layout from hother))
  | .ifElseIf _ test body link => by
    unfold Traced.stmt lowerStmt
    simp only [finishChain_eq]
    exact follows_once (follows_both (lowerValue_follows c test) fun _ _ htest =>
      follows_both (lowerStmt_follows c body) fun _ _ hbody => .map (lowerLink_follows c link) fun _ _ hlink =>
        marks_layout htest hbody hlink)
  | .print _ args => by
    unfold Traced.stmt lowerStmt
    exact follows_once (.map (lowerValues_follows c args) fun _ _ h => h.silent rfl)
  | .ret _ value => by
    unfold Traced.stmt lowerStmt
    refine follows_once (.map (lowerValue_follows c value) fun _ _ h => ?_)
    split
    · exact h
    · exact h.silent rfl
  | .call .. | .binary .. | .comparison .. => by
    unfold Traced.stmt lowerStmt
    exact follows_once (lowerValue_follows c _)
  | .funDecl .. => by
    unfold Traced.stmt lowerStmt
    exact follows_once (.ret rfl)
  | .int .. | .float .. | .str .. | .ident .. | .lambda .. | .access .. | .list .. => by
    unfold Traced.stmt lowerStmt
    exact follows_once (follows_skip c _)

theorem lowerStmts_follows (c : Context) : ∀ ns : List Node, Follows Marks (Traced.stmts c ns) (lowerStmts c ns)
  | [] => by
    unfold Traced.stmts lowerStmts
    exact .ret .nil
  | n :: rest => by
    unfold Traced.stmts lowerStmts
    exact follows_both (lowerStmt_follows c n) fun _ _ hn => .map (lowerStmts_follows c rest) fun _ _ hrest =>
      hn.append hrest

theorem lowerLink_follows (c : Context) : ∀ n : Node,
    Follows (fun ms chain => Marks ms chain.layout) (Traced.chain c n) (lowerLink c n)
  | .ifThen _ test body => by
    unfold Traced.chain lowerLink
    exact .after fun _ => follows_both (lowerValue_follows c test) fun _ _ htest =>
      .map (lowerStmt_follows c body) fun _ _ hbody => marks_branch htest hbody
  | .ifElse _ test body other => by
    unfold Traced.chain lowerLink
    exact .after fun _ => follows_both (lowerValue_follows c test) fun _ _ htest =>
      follows_both (lowerStmt_follows c body) fun _ _ hbody => .map (lowerStmt_follows c other) fun _ _ hother =>
        marks_layout htest hbody (show Marks _ (Chain.otherwise _).layout from hother)
  | .ifElseIf _ test body link => by
    unfold Traced.chain lowerLink
    exact .after fun _ => follows_both (lowerValue_follows c test) fun _ _ htest =>
      follows_both (lowerStmt_follows c body) fun _ _ hbody => .map (lowerLink_follows c link) fun _ _ hlink =>
        marks_layout htest hbody hlink
  | .int .. | .float .. | .str .. | .ident .. | .binary .. | .comparison .. | .call .. | .lambda .. | .access ..
  | .list .. | .decl .. | .funDecl .. | .letIn .. | .block .. | .ret .. | .print .. => by
    unfold lowerLink
    exact .fail

end

theorem lowerSequence_follows (c : Context) (later : List Node) : ∀ ns : List Node,
    Follows Marks (Traced.sequence c later ns) (lowerSequence c later ns)
  | [] => by
    unfold Traced.sequence lowerSequence
    exact .ret .nil
  | n :: rest => by
    have hrest := lowerSequence_follows c later rest
    unfold Traced.sequence lowerSequence
    refine .after fun s => ?_
    split
    · exact hrest
    · split
      · exact .after fun _ => hrest
      · exact follows_both (lowerStmt_follows c n) fun _ _ hn => .map hrest fun _ _ h => hn.append h

def Course.Marks (t : Course) (f : FunctionCode) : Prop :=
  t.function = f.id ∧ accesses t.moments = f.code.filter Instruction.isAccess

theorem lowerFunction_follows (table : FunctionTable) (options : Options) (later : List Node) (r : FunctionRecord) :
    Follows Course.Marks (Traced.function table options later r) (lowerFunction table options later r) := by
  unfold Traced.function lowerFunction
  refine .after fun _ s f s' h => ?_
  obtain ⟨code, s₁, hcode, hf⟩ := bind_eq_ok.mp h
  obtain ⟨rfl, rfl⟩ := pure_eq_ok.mp hf
  obtain ⟨ms, hms, hmarks⟩ := lowerSequence_follows _ _ _ _ _ _ hcode
  refine ⟨⟨r.id, s.frames, ms⟩, bind_eq_ok.mpr ⟨s, s, rfl, bind_eq_ok.mpr ⟨ms, s₁, hms, rfl⟩⟩, rfl, ?_⟩
  dsimp only
  split
  · exact hmarks.silent rfl
  · exact hmarks

theorem lowerFunctions_follows (table : FunctionTable) (options : Options) : ∀ records : List FunctionRecord,
    Follows (List.Forall₂ Course.Marks) (Traced.functions table options records) (lowerFunctions table options records)
  | [] => by
    unfold Traced.functions lowerFunctions
    exact .ret .nil
  | r :: rest => by
    unfold Traced.functions lowerFunctions
    exact .bind (lowerFunction_follows table options _ r) fun _ _ ht =>
      .bind (lowerFunctions_follows table options rest) fun _ _ hrest => .ret (.cons ht hrest)

end Lowering
end Bies
