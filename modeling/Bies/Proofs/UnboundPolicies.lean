import Bies.Compile
import Bies.Proofs.Lockstep

/-!
# Rejecting unbound names

Lowering that gives slots to unbound names tells about each of them. As long as it has not told of one, lowering that
rejects them does the same; at the first one it fails, with the name and the place that were told.
-/

namespace Bies

def Event.implicit? : Event → Option (String × Span)
  | .boundImplicitly name _ span => some (name, span)
  | _ => none

namespace Lowering

def endState {α : Type} : EStateM.Result CompileError State α → State
  | .ok _ s | .error _ s => s

def EndAlike {α : Type} (P : α → α → Prop) :
    EStateM.Result CompileError State α → EStateM.Result CompileError State α → Prop
  | .ok a s, .ok b t => P a b ∧ s = t
  | .error e s, .error e' t => e = e' ∧ s = t
  | _, _ => False

/-- The run of `x` tells something, `new`. If no implicit binding is among it, the run of `y` ends alike; else
`y` rejects the first one. -/
def Restricts {α : Type} (P : α → α → Prop) (x y : Lowering α) : Prop :=
  ∀ s, ∃ new, (endState (x.run s)).events = s.events ++ new ∧ (∀ a s', x.run s = .ok a s' → ∃ b, P a b) ∧
    match new.findSome? Event.implicit? with
    | none => EndAlike P (x.run s) (y.run s)
    | some (name, span) => ∃ s', y.run s = .error (.unboundIdentifier name span) s'

namespace Restricts

variable {α β : Type} {P : α → α → Prop} {Q : β → β → Prop} {x y : Lowering α} {f h : α → Lowering β}

theorem bind (hx : Restricts P x y) (hf : ∀ a b, P a b → Restricts Q (f a) (h b)) :
    Restricts Q (x >>= f) (y >>= h) := by
  intro s
  obtain ⟨new, hnew, hP, hrun⟩ := hx s
  rw [EStateM.run_bind, EStateM.run_bind]
  cases hfirst : new.findSome? Event.implicit? with
  | none =>
    rw [hfirst] at hrun
    cases hxs : x.run s <;> cases hys : y.run s <;> rw [hxs, hys] at hrun <;> rw [hxs] at hnew
    case ok.ok a s₁ b t₁ =>
      obtain ⟨hab, rfl⟩ := hrun
      obtain ⟨more, hmore, hQ, hrest⟩ := hf a b hab s₁
      refine ⟨new ++ more, ?_, hQ, ?_⟩
      · rw [← List.append_assoc]
        exact hmore.trans (congrArg (· ++ more) hnew)
      · rw [List.findSome?_append, hfirst, Option.none_or]
        exact hrest
    case error.error e s₁ e' t₁ =>
      refine ⟨new, hnew, nofun, ?_⟩
      rw [hfirst]
      exact hrun
    all_goals exact hrun.elim
  | some p =>
    -- `y` has failed, and whatever `x` goes on to tell comes after its first implicit binding
    rw [hfirst] at hrun
    obtain ⟨s', hs'⟩ := hrun
    rw [hs']
    cases hxs : x.run s with
    | error e s₁ =>
      rw [hxs] at hnew
      refine ⟨new, hnew, nofun, ?_⟩
      rw [hfirst]
      exact ⟨s', rfl⟩
    | ok a s₁ =>
      rw [hxs] at hnew
      obtain ⟨b, hab⟩ := hP a s₁ hxs
      obtain ⟨more, hmore, hQ, -⟩ := hf a b hab s₁
      refine ⟨new ++ more, ?_, hQ, ?_⟩
      · rw [← List.append_assoc]
        exact hmore.trans (congrArg (· ++ more) hnew)
      · rw [List.findSome?_append, hfirst, Option.some_or]
        exact ⟨s', rfl⟩

theorem ret {a b : α} (h : P a b) : Restricts P (pure a) (pure b) := by
  intro s
  refine ⟨[], (List.append_nil _).symm, ?_, h, rfl⟩
  rintro _ _ ⟨⟩
  exact ⟨b, h⟩

theorem fail (e : CompileError) : Restricts P (throw e) (throw e) := by
  intro s
  exact ⟨[], (List.append_nil _).symm, nofun, rfl, rfl⟩

theorem read {P : State → State → Prop} (h : ∀ s, P s s) : Restricts P get get := by
  intro s
  refine ⟨[], (List.append_nil _).symm, ?_, h s, rfl⟩
  rintro _ _ ⟨⟩
  exact ⟨s, h s⟩

theorem changeGet {k : State → α × State} (hP : ∀ a, P a a)
    (hk : ∀ s, ∃ new, (k s).2.events = s.events ++ new ∧ new.findSome? Event.implicit? = none) :
    Restricts P (modifyGet k) (modifyGet k) := by
  intro s
  obtain ⟨new, hnew, hnone⟩ := hk s
  refine ⟨new, hnew, fun a _ _ => ⟨a, hP a⟩, ?_⟩
  rw [hnone]
  exact ⟨hP _, rfl⟩

theorem change {P : Unit → Unit → Prop} {k : State → State} (hP : ∀ a, P a a)
    (hk : ∀ s, (k s).events = s.events) : Restricts P (modify k) (modify k) :=
  changeGet (k := fun s => ((), k s)) hP fun s => ⟨[], by rw [hk, List.append_nil], rfl⟩

theorem tell {P : Unit → Unit → Prop} (hP : ∀ a, P a a) {e : Event} (he : e.implicit? = none) :
    Restricts P (note e) (note e) :=
  changeGet (k := fun s => ((), { s with events := s.events ++ [e] })) hP fun s => ⟨[e], rfl, by simp [he]⟩

end Restricts

variable {c : Context} {callee : CalleePolicy}

theorem bind_restricts (name : String) (value : Option Node) :
    Restricts Eq (Lowering.bind c name value) (Lowering.bind { c with options := ⟨.reject, callee⟩ } name value) :=
  .changeGet (fun _ => rfl) fun _ => ⟨[], (List.append_nil _).symm, rfl⟩

theorem loadName_restricts (hc : c.options = ⟨.implicitBinding, callee⟩) (name : String) (span : Span) :
    Restricts Eq (loadName c name span) (loadName { c with options := ⟨.reject, callee⟩ } name span) := by
  refine .bind (P := Eq) (.read fun _ => rfl) ?_
  rintro s _ rfl
  cases s.frames.resolve? name c.chain with
  | some r => exact .ret rfl
  | none =>
    cases c.table.get? name with
    | some record => exact .ret rfl
    | none =>
      simp only [hc]
      intro s
      exact ⟨[.boundImplicitly name (s.frames.bind c.function name none).1 span], rfl,
        fun a _ _ => ⟨a, rfl⟩, s, rfl⟩

theorem isTextual_options (o : Options) (fs : Frames) : ∀ (limit : Nat) (n : Node),
    isTextual { c with options := o } fs limit n = isTextual c fs limit n := by
  intro limit
  induction limit with
  | zero => exact fun _ => rfl
  | succ limit ih =>
    intro n
    cases n with
    | ident | binary => simp only [isTextual, funext ih]
    | _ => rfl

theorem arithmeticInstruction_restricts (o : Options) (tag : Tag) (left : Node) (op : String) (right : Node) :
    Restricts Eq (arithmeticInstruction c tag left op right)
      (arithmeticInstruction { c with options := o } tag left op right) := by
  unfold arithmeticInstruction
  cases Instruction.arithmetic? op with
  | none => exact .fail _
  | some i =>
    refine .bind (P := Eq) (.read fun _ => rfl) ?_
    rintro s _ rfl
    have htextual : ∀ n, isTextual { c with options := o } s.frames maxTextual n = isTextual c s.frames maxTextual n :=
      isTextual_options o s.frames maxTextual
    dsimp only
    rw [htextual, htextual]
    exact .ret rfl

theorem finishCall_restricts (hc : c.options = ⟨.implicitBinding, callee⟩) (tag : Tag) (name : String)
    (args : List Node) :
    Restricts Eq (finishCall c tag name args) (finishCall { c with options := ⟨.reject,
      callee⟩ } tag name args) := by
  refine .bind (P := Eq) (.read fun _ => rfl) ?_
  rintro s _ rfl
  have hbuiltin : isBuiltin { c with options := ⟨.reject, callee⟩ } s.frames name = isBuiltin c s.frames name := rfl
  rw [hbuiltin]
  by_cases h : isBuiltin c s.frames name
  · rw [if_pos h, if_pos h]
    by_cases hlen : name = lenName
    · rw [if_pos hlen, if_pos hlen]
      exact .ret rfl
    · rw [if_neg hlen, if_neg hlen]
      refine .bind (bind_restricts _ _) ?_
      rintro slot _ rfl
      exact .ret rfl
  · rw [if_neg h, if_neg h]
    refine .bind (loadName_restricts hc name tag.span) ?_
    rintro i _ rfl
    have hvalues : ∀ frames record, parameterValues { c with options := ⟨.reject, callee⟩ } frames record args =
        parameterValues c frames record args := by
      intro frames record
      simp only [parameterValues, hc]
    simp only [hvalues]
    cases c.table.get? name with
    | none => exact .ret rfl
    | some record => exact .bind (P := Eq) (.change (fun _ => rfl) fun _ => rfl) fun _ _ _ => .ret rfl

def unboundPolicies (callee : CalleePolicy) :
    Lockstep ⟨.implicitBinding, callee⟩ ⟨.reject, callee⟩ where
  rel := Restricts
  bind := .bind
  ret := .ret
  fail := .fail
  same := Eq
  same_refl := Eq.refl
  isRet_eq := @Instruction.isRet_congr
  read := .read fun s => ⟨rfl, rfl⟩
  visit id v := .change (fun _ => trivial) fun _ => rfl
  start f name := .tell (fun _ => trivial) rfl
  skip c n := by
    refine .bind (P := Eq) (.tell (fun _ => rfl) rfl) fun _ _ _ => ?_
    exact .bind (P := Eq) (.change (fun _ => rfl) fun _ => rfl) fun _ _ _ => .ret rfl
  bindName _ name value := bind_restricts name (some value)
  loadName hc name span := loadName_restricts hc name span
  arithmetic _ := arithmeticInstruction_restricts _
  finishCall hc tag name args := finishCall_restricts hc tag name args

theorem ofTable_restricts (callee : CalleePolicy) (table : FunctionTable) :
    match (Assembly.ofTable table ⟨.implicitBinding, callee⟩).events.findSome? Event.implicit? with
    | none => Assembly.ofTable table ⟨.reject, callee⟩ = Assembly.ofTable table ⟨.implicitBinding, callee⟩
    | some (name, span) =>
      (Assembly.ofTable table ⟨.reject, callee⟩).result = .error (.unboundIdentifier name span) := by
  have h := (unboundPolicies callee).lower table
  obtain ⟨new, hnew, -, hrun⟩ := h { frames := .ofTable table }
  have hevents : (Assembly.ofTable table ⟨.implicitBinding, callee⟩).events = new := by
    rw [← List.nil_append new, ← hnew]
    unfold Assembly.ofTable Outcome.ofRun
    cases (lower table ⟨.implicitBinding, callee⟩).run { frames := .ofTable table } <;> rfl
  rw [hevents]
  unfold Assembly.ofTable Outcome.ofRun
  cases hfirst : new.findSome? Event.implicit? with
  | none =>
    rw [hfirst] at hrun
    cases hx : (lower table ⟨.implicitBinding, callee⟩).run { frames := .ofTable table } <;>
      cases hy : (lower table ⟨.reject, callee⟩).run { frames := .ofTable table } <;> rw [hx, hy] at hrun
    case ok.ok a s b t =>
      obtain ⟨⟨hfunctions, hskipped⟩, rfl⟩ := hrun
      have hab : b = a := by
        obtain ⟨functions, skipped⟩ := a
        obtain ⟨functions', skipped'⟩ := b
        rw [Assembly.mk.injEq]
        exact ⟨(FunctionCode.eq_of_alike hfunctions).symm, hskipped.symm⟩
      rw [hab]
    case error.error e s e' t =>
      obtain ⟨rfl, rfl⟩ := hrun
      rfl
    all_goals exact hrun.elim
  | some p =>
    rw [hfirst] at hrun
    obtain ⟨s', hs'⟩ := hrun
    rw [hs']

end Lowering

namespace Loading

def Quiet {α : Type} (P : α → α → Prop) (x : Loading α) : Prop :=
  ∀ s : State, s.events.findSome? Event.implicit? = none → match x.run s with
    | .ok a s' => (∃ b, P a b) ∧ s'.events.findSome? Event.implicit? = none
    | .error _ s' => s'.events.findSome? Event.implicit? = none

namespace Quiet

variable {α β : Type} {P : α → α → Prop} {Q : β → β → Prop} {x : Loading α} {f : α → Loading β}

theorem bind (hx : Quiet P x) (hf : ∀ a b, P a b → Quiet Q (f a)) : Quiet Q (x >>= f) := by
  intro s hs
  have hx := hx s hs
  rw [EStateM.run_bind]
  cases hrun : x.run s with
  | error e s₁ =>
    rw [hrun] at hx
    exact hx
  | ok a s₁ =>
    rw [hrun] at hx
    obtain ⟨⟨b, hab⟩, hs₁⟩ := hx
    exact hf a b hab s₁ hs₁

theorem change {P : Unit → Unit → Prop} (hP : P () ()) {k : State → State} (hk : ∀ s, (k s).events = s.events) :
    Quiet P (modify k) := fun s hs => ⟨⟨(), hP⟩, (congrArg _ (hk s)).trans hs⟩

theorem tell {P : Unit → Unit → Prop} (hP : P () ()) {e : Event} (he : e.implicit? = none) : Quiet P (note e) := by
  intro s hs
  refine ⟨⟨(), hP⟩, ?_⟩
  simp [hs, he]

theorem ret {a b : α} (h : P a b) : Quiet P (pure a) := fun _ hs => ⟨⟨b, h⟩, hs⟩

theorem fail (e : CompileError) : Quiet P (throw e) := fun _ hs => hs

end Quiet

theorem declareFunction_quiet {parent : FunctionId} {name : String} {params : List String} {span : Span} :
    Quiet Eq (declareFunction parent name params span) := by
  unfold declareFunction
  by_cases h : name = mainName
  · rw [if_pos h]
    exact .bind (P := fun _ _ => False) (.fail _) fun _ _ h => h.elim
  · rw [if_neg h]
    exact fun s hs => ⟨⟨_, rfl⟩, hs⟩

def quietly : Simulation where
  World := Unit
  le _ _ := True
  rel _ P x _ := Quiet (P ()) x
  bind h hf := h.bind fun a b hab => hf () trivial a b hab
  ret := .ret
  spans := Eq
  names _ := True
  tags _ := Eq
  tags_mono _ h := h
  spans_of_tags h := congrArg _ h
  nodes _ := Eq
  nodes_mono _ h := h
  nodes_iff := Node.paired_self
  tables _ := Eq
  tables_mono _ h := h
  size_eq h := congrArg _ h
  exprs := Eq
  bodies := Eq
  stmts := Eq
  expr h := .inl (h ▸ Expr.paired_self _)
  body h := h ▸ Body.paired_self _
  stmt h := h ▸ Stmt.paired_self _
  malformed _ _ := .fail _
  freshId hs _ h := ⟨⟨_, congrArg _ hs⟩, h⟩
  append f n := by
    refine .bind (P := Eq) (fun s hs => ⟨⟨s, rfl⟩, hs⟩) fun s _ _ => ?_
    by_cases h : f < s.table.size
    · rw [if_pos h]
      exact .change trivial fun _ => rfl
    · rw [if_neg h]
      exact .bind (P := fun _ _ => False) (.fail _) fun _ _ h => h.elim
  openLetIn := .change trivial fun _ => rfl
  openBlock := .change trivial fun _ => rfl
  openFunction _ := .change trivial fun _ => rfl
  closeScope := .change trivial fun _ => rfl
  declareName _ _ := .change trivial fun _ => rfl
  declareFunction _ _ _ _ := declareFunction_quiet
  declareLambda _ _ _ := declareFunction_quiet
  clear _ := .change trivial fun _ => rfl
  declared _ _ := .tell trivial rfl
  lifted _ _ := .tell trivial rfl
  liftedLambda _ _ := .tell trivial rfl
  loaded _ := .tell trivial rfl
  arithmetic op _ _ _ := by
    refine .bind (P := Eq) (fun s hs => ⟨⟨s, rfl⟩, hs⟩) fun s _ _ => ?_
    dsimp only
    split <;> exact fun s hs => ⟨⟨_, rfl⟩, hs⟩
  read s hs := ⟨⟨s, rfl⟩, hs⟩

end Loading

theorem FunctionTable.quiet_ofProgram (program : Program) :
    (FunctionTable.ofProgram program).events.findSome? Event.implicit? = none := by
  have h := Loading.quietly.load (w := ()) (List.forall₂_same.mpr fun _ _ => rfl :
    List.Forall₂ Eq program program) {} rfl
  unfold ofProgram Outcome.ofRun
  cases hrun : (Loading.load program).run {} <;> rw [hrun] at h
  · exact h.2
  · exact h

/-- If names without a binding are rejected, the first name that would have been bound implicitly is the error. If there
is none, nothing changes. -/
theorem compileTree_reject (callee : CalleePolicy) (source : List Char) (tree : Tree) :
    match (compileTree ⟨.implicitBinding, callee⟩ source tree).events.findSome? Event.implicit? with
    | none => compileTree ⟨.reject, callee⟩ source tree = compileTree ⟨.implicitBinding, callee⟩ source tree
    | some (name, span) =>
      (compileTree ⟨.reject, callee⟩ source tree).result = .error (.unboundIdentifier name span) := by
  have hquiet := FunctionTable.quiet_ofProgram (.ofTree source tree)
  unfold compileTree Outcome.andThen
  cases (FunctionTable.ofProgram (.ofTree source tree)).result with
  | error e =>
    dsimp only
    rw [hquiet]
  | ok table =>
    have h := Lowering.ofTable_restricts callee table
    dsimp only
    rw [List.findSome?_append, hquiet, Option.none_or]
    cases hfirst : (Assembly.ofTable table ⟨.implicitBinding, callee⟩).events.findSome? Event.implicit? with
    | none =>
      rw [hfirst] at h
      rw [show Assembly.ofTable table ⟨.reject, callee⟩ = _ from h]
    | some p =>
      rw [hfirst] at h
      exact h

end Bies
