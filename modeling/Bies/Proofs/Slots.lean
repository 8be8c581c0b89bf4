import Bies.Proofs.Failures
import Bies.Proofs.Machine
import Bies.Proofs.Moments

/-!
# Slots

An instruction that reads or writes a variable does so in the slot that the variable has when all
functions are lowered. The functions around one are lowered before it, so what is read further out is
never moved: frames gain slots at their end and do nothing else.
-/

namespace Bies

/-! ## Frames that grow -/

namespace Frames

def frame (fs : Frames) (f : FunctionId) : Frame := (fs.get? f).getD []

structure Extends (fs fs' : Frames) : Prop where
  count : fs'.frames.length = fs.frames.length
  frame : ∀ f, (fs.frame f).Extends (fs'.frame f)

variable {fs fs' fs'' : Frames} {f g : FunctionId} {name : String} {value : Option Node}

theorem Extends.refl (fs : Frames) : fs.Extends fs := ⟨rfl, fun _ => .refl _⟩

theorem Extends.trans (h : fs.Extends fs') (h' : fs'.Extends fs'') : fs.Extends fs'' :=
  ⟨h'.count.trans h.count, fun f => (h.frame f).trans (h'.frame f)⟩

theorem Extends.slot? (h : fs.Extends fs') {slot : Nat} (hslot : (fs.frame f).slot? name = some slot) :
    (fs'.frame f).slot? name = some slot := by
  obtain ⟨more, hmore⟩ := h.frame f
  rw [Frame.slot?_eq] at hslot ⊢
  rw [hmore, List.findIdx?_append, hslot]
  rfl

theorem frame_bind (hf : f < fs.frames.length) :
    (fs.bind f name value).1 = ((fs.frame f).bind name value).1 ∧
      (fs.bind f name value).2.frame f = ((fs.frame f).bind name value).2 := by
  have hget : fs.get? f = some (fs.frame f) := by
    simp [frame, get?, hf]
  constructor
  · rw [bind, hget]
  · rw [bind, hget]
    simp [frame, get?, hf]

theorem frame_bind_ne (hg : g ≠ f) : (fs.bind f name value).2.frame g = fs.frame g := by
  unfold bind
  split
  · simp [frame, get?, List.getElem?_set_ne hg.symm]
  · rfl

theorem extends_bind (hf : f < fs.frames.length) : fs.Extends (fs.bind f name value).2 where
  count := by
    unfold bind
    split <;> simp
  frame g := by
    by_cases hg : g = f
    · subst hg
      rw [(frame_bind hf).2]
      exact Frame.bind_extends _ _ _
    · rw [frame_bind_ne hg]
      exact .refl _

theorem slot?_bind (hf : f < fs.frames.length) :
    ((fs.bind f name value).2.frame f).slot? name = some (fs.bind f name value).1 := by
  rw [(frame_bind hf).1, (frame_bind hf).2]
  exact Frame.slot?_bind _ _ _

theorem names_seed : ∀ (F : Frame) (values : List (Option Node)), (F.seed values).map (·.name) = F.map (·.name)
  | [], _ => by simp [Frame.seed]
  | _ :: _, [] => rfl
  | b :: rest, value :: values => by simp [Frame.seed, names_seed rest values]

theorem names_frame_seed (values : List (Option Node)) :
    ((fs.seed f values).frame g).map (·.name) = (fs.frame g).map (·.name) := by
  unfold frame get? seed
  rw [List.getElem?_modify]
  cases fs.frames[g]? with
  | none => rfl
  | some F =>
    by_cases hfg : f = g
    · simp [hfg, names_seed]
    · simp [hfg]

theorem extends_seed (values : List (Option Node)) : fs.Extends (fs.seed f values) where
  count := by simp [seed]
  frame g := ⟨[], by rw [names_frame_seed, List.append_nil]⟩

/-- The variable is in the slot, `n` functions out, and in no nearer function. -/
def Finds (fs : Frames) (chain : List FunctionId) (name : String) (n slot : Nat) : Prop :=
  ∃ g, chain[n]? = some g ∧ (fs.frame g).slot? name = some slot ∧
    ∀ k < n, ∀ g', chain[k]? = some g' → (fs.frame g').slot? name = none

theorem resolve?_cons (outer : List FunctionId) : fs.resolve? name (f :: outer) =
    match (fs.frame f).slot? name with
    | some slot => some ⟨0, slot, (fs.frame f).value? slot⟩
    | none => (fs.resolve? name outer).map fun r => { r with frame := r.frame + 1 } := by
  rw [resolve?]
  unfold frame
  cases fs.get? f with
  | none => rfl
  | some F => cases h : F.slot? name <;> simp [h]

theorem finds_of_resolve? : ∀ {chain : List FunctionId} {r : Resolved}, fs.resolve? name chain = some r →
    fs.Finds chain name r.frame r.slot
  | [], _, h => by cases h
  | f :: outer, r, h => by
    rw [resolve?_cons] at h
    cases hslot : (fs.frame f).slot? name with
    | some slot =>
      rw [hslot] at h
      obtain rfl := Option.some.inj h
      exact ⟨f, rfl, hslot, nofun⟩
    | none =>
      rw [hslot] at h
      obtain ⟨r, hr, rfl⟩ := Option.map_eq_some_iff.mp h
      obtain ⟨g, hg, hgslot, hnearer⟩ := finds_of_resolve? hr
      refine ⟨g, hg, hgslot, fun k hk g' hg' => ?_⟩
      cases k with
      | zero =>
        obtain rfl := Option.some.inj hg'
        exact hslot
      | succ k => exact hnearer k (Nat.lt_of_succ_lt_succ hk) g' hg'

end Frames

namespace Lowering

/-! ## What a step does to the frames -/

def Moment.Right (c : Context) (m : Moment) : Prop :=
  ∀ x, (∀ n slot, m.access = some (.bld n slot, x) → m.frames.Finds c.chain x n slot) ∧
    ∀ n slot, m.access = some (.bst n slot, x) → n = 0 ∧ (m.frames.frame c.function).slot? x = some slot

/-- From the frames `before` to `after`, by the moments: frames grow, no function but the current one gains a slot,
and what is read and written is right. -/
structure Passes (c : Context) (before : Frames) (ms : List Moment) (after : Frames) : Prop where
  grows : (before :: ms.map (·.frames) ++ [after]).Pairwise Frames.Extends
  others : ∀ g ≠ c.function, (after.frame g).length = (before.frame g).length
  right : ∀ m ∈ ms, m.Right c

namespace Passes

variable {c : Context} {before mid after : Frames} {ms ms' : List Moment}

theorem whole (h : Passes c before ms after) : before.Extends after := by
  have := h.grows
  rw [List.cons_append, List.pairwise_cons] at this
  exact this.1 after (by simp)

theorem nil : Passes c before [] before :=
  ⟨by simp [Frames.Extends.refl], fun _ _ => rfl, nofun⟩

theorem single {m : Moment} (h : before.Extends m.frames)
    (hothers : ∀ g ≠ c.function, (m.frames.frame g).length = (before.frame g).length) (hright : m.Right c) :
    Passes c before [m] m.frames :=
  ⟨by simp [h, Frames.Extends.refl], hothers, by simpa using hright⟩

theorem append (h : Passes c before ms mid) (h' : Passes c mid ms' after) : Passes c before (ms ++ ms') after where
  grows := by
    obtain ⟨hgrows, _, hmid⟩ := List.pairwise_append.mp h.grows
    obtain ⟨hmid', hgrows'⟩ := List.pairwise_cons.mp h'.grows
    rw [List.map_append, ← List.cons_append, List.append_assoc]
    refine List.pairwise_append.mpr ⟨hgrows, hgrows', fun fs hfs fs' hfs' => ?_⟩
    exact (hmid fs hfs mid (List.mem_singleton_self mid)).trans (hmid' fs' hfs')
  others g hg := (h'.others g hg).trans (h.others g hg)
  right m hm := (List.mem_append.mp hm).elim (h.right m) (h'.right m)

end Passes

def Passing (c : Context) (x : Lowering (List Moment)) : Prop :=
  ∀ s ms s', c.function < s.frames.frames.length → x.run s = .ok ms s' → Passes c s.frames ms s'.frames

def Steady {α : Type} (x : Lowering α) : Prop := ∀ s a s', x.run s = .ok a s' → s'.frames = s.frames

section
variable {c : Context} {α : Type} {x y : Lowering (List Moment)}

theorem passing_nil : Passing c (pure []) := by
  intro s ms s' _ h
  obtain ⟨rfl, rfl⟩ := pure_eq_ok.mp h
  exact .nil

theorem passing_both (hx : Passing c x) (hy : Passing c y) : Passing c (Traced.both x y) := by
  intro s ms s' hc h
  obtain ⟨ms₁, s₁, h₁, h⟩ := bind_eq_ok.mp h
  obtain ⟨ms₂, s₂, h₂, h⟩ := bind_eq_ok.mp h
  obtain ⟨rfl, rfl⟩ := pure_eq_ok.mp h
  have hfirst := hx s ms₁ s₁ hc h₁
  exact hfirst.append (hy s₁ ms₂ s₂ (hfirst.whole.count ▸ hc) h₂)

theorem passing_after {z : Lowering α} {k : α → Lowering (List Moment)} (hz : Steady z)
    (hk : ∀ a, Passing c (k a)) : Passing c (z >>= k) := by
  intro s ms s' hc h
  obtain ⟨a, s₁, h₁, h⟩ := bind_eq_ok.mp h
  have hframes := hz s a s₁ h₁
  rw [← hframes] at hc ⊢
  exact hk a s₁ ms s' hc h

theorem steady_get : Steady get := by
  intro s a s' h
  obtain ⟨_, rfl⟩ := get_eq_ok.mp h
  rfl

theorem steady_visit (id : NodeId) (v : Visit) : Steady (visit id v) := by
  intro s a s' h
  obtain rfl := modify_eq_ok.mp h
  rfl

theorem steady_note (e : Event) : Steady (note e) := by
  intro s a s' h
  obtain rfl := modify_eq_ok.mp h
  rfl

theorem steady_skip (n : Node) : Steady (skip c n) := by
  intro s a s' h
  obtain ⟨_, s₁, h₁, h⟩ := bind_eq_ok.mp h
  obtain ⟨_, s₂, h₂, h⟩ := bind_eq_ok.mp h
  obtain ⟨_, rfl⟩ := pure_eq_ok.mp h
  obtain rfl := modify_eq_ok.mp h₁
  obtain rfl := modify_eq_ok.mp h₂
  rfl

theorem steady_arithmeticInstruction (tag : Tag) (left : Node) (op : String) (right : Node) :
    Steady (arithmeticInstruction c tag left op right) := by
  intro s a s' h
  unfold arithmeticInstruction at h
  split at h
  · exact absurd h throw_ne_ok
  · obtain ⟨_, s₁, h₁, h⟩ := bind_eq_ok.mp h
    obtain ⟨_, rfl⟩ := get_eq_ok.mp h₁
    obtain ⟨_, rfl⟩ := pure_eq_ok.mp h
    rfl

theorem passing_once {id : NodeId} (hx : Passing c x) : Passing c (once id x) := by
  refine passing_after steady_get fun _ => passing_after (steady_visit id _) fun _ => ?_
  split
  · exact passing_nil
  · exact hx

section
variable {s s' : State} {access : Option (Instruction × String)} {value : Option Node} {before : Frames}

theorem loadName_eq_ok {name : String} {span : Span} {i : Instruction}
    (h : (loadName c name span).run s = .ok i s') :
    (∃ r, s.frames.resolve? name c.chain = some r ∧ i = .bld r.frame r.slot ∧ s'.frames = s.frames) ∨
      (∃ r, s.frames.resolve? name c.chain = none ∧ c.table.get? name = some r ∧ i = .ldf r.id ∧
        s'.frames = s.frames) ∨
      (s.frames.resolve? name c.chain = none ∧ c.table.get? name = none ∧
        s'.frames = (s.frames.bind c.function name none).2 ∧ i = .bld 0 (s.frames.bind c.function name none).1) := by
  unfold loadName at h
  obtain ⟨_, s₁, h₁, h⟩ := bind_eq_ok.mp h
  obtain ⟨rfl, rfl⟩ := get_eq_ok.mp h₁
  split at h
  next r hr =>
    obtain ⟨rfl, rfl⟩ := pure_eq_ok.mp h
    exact .inl ⟨r, hr, rfl, rfl⟩
  next hr =>
    split at h
    next r hget =>
      obtain ⟨rfl, rfl⟩ := pure_eq_ok.mp h
      exact .inr (.inl ⟨r, hr, hget, rfl, rfl⟩)
    next hget =>
      split at h
      next =>
        obtain ⟨slot, s₁, h₁, h⟩ := bind_eq_ok.mp h
        obtain ⟨_, s₂, h₂, h⟩ := bind_eq_ok.mp h
        obtain ⟨rfl, rfl⟩ := pure_eq_ok.mp h
        have hbind := modifyGet_eq_ok.mp h₁
        obtain ⟨rfl, rfl⟩ := Prod.mk.inj hbind
        obtain rfl := modify_eq_ok.mp h₂
        exact .inr (.inr ⟨hr, hget, rfl, rfl⟩)
      next => exact absurd h throw_ne_ok

theorem moment_eq_ok {ms : List Moment} :
    (Traced.moment access).run s = .ok ms s' ↔ [⟨s.frames, access⟩] = ms ∧ s = s' :=
  pure_eq_ok (ε := CompileError)

theorem bind_eq {name : String} {slot : Nat}
    (h : (bind c name value).run s = .ok slot s') :
    slot = (s.frames.bind c.function name value).1 ∧ s'.frames = (s.frames.bind c.function name value).2 := by
  obtain ⟨rfl, rfl⟩ := Prod.mk.inj (modifyGet_eq_ok.mp h)
  exact ⟨rfl, rfl⟩

theorem passes_bind {name : String} (hc : c.function < before.frames.length)
    (hright : Moment.Right c ⟨(before.bind c.function name value).2, access⟩) :
    Passes c before [⟨(before.bind c.function name value).2, access⟩] (before.bind c.function name value).2 :=
  .single (Frames.extends_bind hc) (fun _ hg => congrArg _ (Frames.frame_bind_ne hg)) hright

theorem right_bst {name : String} (hc : c.function < before.frames.length) :
    Moment.Right c ⟨(before.bind c.function name value).2,
      some (.bst 0 (before.bind c.function name value).1, name)⟩ := by
  refine fun x => ⟨nofun, ?_⟩
  rintro n slot h
  obtain ⟨⟨rfl, rfl⟩, rfl⟩ : (0 = n ∧ (before.bind c.function name value).1 = slot) ∧ name = x := by
    simpa using h
  exact ⟨rfl, Frames.slot?_bind hc⟩

end

theorem passing_store (name : String) (value : Node) : Passing c (Traced.store c name value) := by
  intro s ms s' hc h
  obtain ⟨slot, s₁, hbind, h⟩ := bind_eq_ok.mp h
  obtain ⟨rfl, rfl⟩ := moment_eq_ok.mp h
  obtain ⟨rfl, hframes⟩ := bind_eq hbind
  rw [hframes]
  exact passes_bind hc (right_bst hc)

section
variable (hchain : c.chain.head? = some c.function)
include hchain

theorem right_bld {before : Frames} {name : String} {value : Option Node} (hc : c.function < before.frames.length) :
    Moment.Right c ⟨(before.bind c.function name value).2,
      some (.bld 0 (before.bind c.function name value).1, name)⟩ := by
  refine fun x => ⟨?_, nofun⟩
  rintro n slot h
  obtain ⟨⟨rfl, rfl⟩, rfl⟩ : (0 = n ∧ (before.bind c.function name value).1 = slot) ∧ name = x := by
    simpa using h
  exact ⟨c.function, List.head?_eq_getElem? ▸ hchain, Frames.slot?_bind hc, nofun⟩

theorem passing_load (name : String) (span : Span) : Passing c (Traced.load c name span) := by
  intro s ms s' hc h
  obtain ⟨i, s₁, hi, h⟩ := bind_eq_ok.mp h
  rcases loadName_eq_ok hi with ⟨r, hr, rfl, hframes⟩ | ⟨r, -, -, rfl, hframes⟩ | ⟨-, -, hframes, rfl⟩
  · obtain ⟨rfl, rfl⟩ := moment_eq_ok.mp h
    rw [hframes]
    refine .single (.refl _) (fun _ _ => rfl) fun x => ⟨fun n slot hload => ?_, nofun⟩
    obtain ⟨⟨rfl, rfl⟩, rfl⟩ : (r.frame = n ∧ r.slot = slot) ∧ name = x := by simpa using hload
    exact Frames.finds_of_resolve? hr
  · obtain ⟨rfl, rfl⟩ := pure_eq_ok.mp h
    rw [hframes]
    exact .nil
  · obtain ⟨rfl, rfl⟩ := moment_eq_ok.mp h
    rw [hframes]
    exact passes_bind hc (right_bld hchain hc)

theorem passing_call (tag : Tag) (name : String) (args : List Node) : Passing c (Traced.call c tag name args) := by
  refine passing_after steady_get fun s => ?_
  split
  · split
    · exact passing_nil
    · intro s ms s' hc h
      obtain ⟨slot, s₁, hbind, h⟩ := bind_eq_ok.mp h
      obtain ⟨ms₁, s₂, h₁, h⟩ := bind_eq_ok.mp h
      obtain ⟨ms₂, s₃, h₂, h⟩ := bind_eq_ok.mp h
      obtain ⟨rfl, rfl⟩ := pure_eq_ok.mp h
      obtain ⟨rfl, rfl⟩ := moment_eq_ok.mp h₁
      obtain ⟨rfl, rfl⟩ := moment_eq_ok.mp h₂
      obtain ⟨rfl, hframes⟩ := bind_eq hbind
      rw [hframes]
      exact (passes_bind hc (right_bst hc)).append (.single (.refl _) (fun _ _ => rfl) (right_bld hchain hc))
  · refine passing_both (passing_load hchain name tag.span) ?_
    intro s ms s' hc h
    have hstill : ∀ fs, Moment.Right c ⟨fs, none⟩ := fun _ _ => ⟨nofun, nofun⟩
    cases hcallee : c.table.get? name with
    | none =>
      rw [hcallee] at h
      obtain ⟨rfl, rfl⟩ := moment_eq_ok.mp h
      exact .single (.refl _) (fun _ _ => rfl) (hstill _)
    | some callee =>
      rw [hcallee] at h
      obtain ⟨_, s₁, hseed, h⟩ := bind_eq_ok.mp h
      obtain ⟨rfl, rfl⟩ := moment_eq_ok.mp h
      obtain rfl := modify_eq_ok.mp hseed
      refine .single (Frames.extends_seed _) (fun g _ => ?_) (hstill _)
      simpa using congrArg List.length (@Frames.names_frame_seed s.frames callee.id g _)

end

mutual

theorem value_passing (hchain : c.chain.head? = some c.function) : ∀ n : Node, Passing c (Traced.value c n)
  | .ident tag name => by
    unfold Traced.value
    exact passing_after (steady_visit _ _) fun _ => passing_load hchain name tag.span
  | .binary tag left op right => by
    unfold Traced.value
    exact passing_after (steady_visit _ _) fun _ => passing_after
      (steady_arithmeticInstruction tag left op right) fun _ =>
      passing_both (value_passing hchain right) (value_passing hchain left)
  | .comparison _ left _ right => by
    unfold Traced.value
    exact passing_after (steady_visit _ _) fun _ => passing_both (value_passing hchain right) (value_passing hchain left)
  | .call tag name args => by
    unfold Traced.value
    exact passing_after (steady_visit _ _) fun _ => passing_both (values_passing hchain args)
      (passing_call hchain tag name args)
  | .access tag name index => by
    unfold Traced.value
    exact passing_after (steady_visit _ _) fun _ => passing_both (value_passing hchain index)
      (passing_load hchain name tag.span)
  | .lambda .. | .int .. | .float .. | .str .. | .list .. | .decl .. | .funDecl .. | .letIn .. | .block .. | .ifThen ..
  | .ifElse .. | .ifElseIf .. | .ret .. | .print .. => by
    unfold Traced.value
    exact passing_after (steady_visit _ _) fun _ => passing_nil

theorem values_passing (hchain : c.chain.head? = some c.function) : ∀ ns : List Node, Passing c (Traced.values c ns)
  | [] => by
    unfold Traced.values
    exact passing_nil
  | n :: rest => by
    unfold Traced.values
    exact passing_both (value_passing hchain n) (values_passing hchain rest)

end

mutual

theorem stmt_passing (hchain : c.chain.head? = some c.function) : ∀ n : Node, Passing c (Traced.stmt c n)
  | .decl _ _ name value => by
    unfold Traced.stmt
    exact passing_once (passing_both (value_passing hchain value) (passing_store name value))
  | .letIn _ decls body => by
    unfold Traced.stmt
    exact passing_once (passing_both (stmts_passing hchain decls) (stmt_passing hchain body))
  | .block _ statements => by
    unfold Traced.stmt
    exact passing_once (stmts_passing hchain statements)
  | .ifThen _ test body => by
    unfold Traced.stmt
    exact passing_once (passing_both (value_passing hchain test) (stmt_passing hchain body))
  | .ifElse _ test body other => by
    unfold Traced.stmt
    exact passing_once (passing_both (value_passing hchain test)
      (passing_both (stmt_passing hchain body) (stmt_passing hchain other)))
  | .ifElseIf _ test body link => by
    unfold Traced.stmt
    exact passing_once (passing_both (value_passing hchain test)
      (passing_both (stmt_passing hchain body) (chain_passing hchain link)))
  | .print _ args => by
    unfold Traced.stmt
    exact passing_once (values_passing hchain args)
  | .ret _ value => by
    unfold Traced.stmt
    exact passing_once (value_passing hchain value)
  | .call .. | .binary .. | .comparison .. => by
    unfold Traced.stmt
    exact passing_once (value_passing hchain _)
  | .funDecl .. => by
    unfold Traced.stmt
    exact passing_once passing_nil
  | .int .. | .float .. | .str .. | .ident .. | .lambda .. | .access .. | .list .. => by
    unfold Traced.stmt
    exact passing_once (passing_after (steady_skip _) fun _ => passing_nil)

theorem stmts_passing (hchain : c.chain.head? = some c.function) : ∀ ns : List Node, Passing c (Traced.stmts c ns)
  | [] => by
    unfold Traced.stmts
    exact passing_nil
  | n :: rest => by
    unfold Traced.stmts
    exact passing_both (stmt_passing hchain n) (stmts_passing hchain rest)

theorem chain_passing (hchain : c.chain.head? = some c.function) : ∀ n : Node, Passing c (Traced.chain c n)
  | .ifThen _ test body => by
    unfold Traced.chain
    exact passing_after (steady_visit _ _) fun _ => passing_both (value_passing hchain test) (stmt_passing hchain body)
  | .ifElse _ test body other => by
    unfold Traced.chain
    exact passing_after (steady_visit _ _) fun _ =>
      passing_both (value_passing hchain test) (passing_both (stmt_passing hchain body) (stmt_passing hchain other))
  | .ifElseIf _ test body link => by
    unfold Traced.chain
    exact passing_after (steady_visit _ _) fun _ =>
      passing_both (value_passing hchain test) (passing_both (stmt_passing hchain body) (chain_passing hchain link))
  | .int .. | .float .. | .str .. | .ident .. | .binary .. | .comparison .. | .call .. | .lambda .. | .access ..
  | .list .. | .decl .. | .funDecl .. | .letIn .. | .block .. | .ret .. | .print .. => by
    unfold Traced.chain
    exact passing_nil

end

theorem sequence_passing (hchain : c.chain.head? = some c.function) (later : List Node) : ∀ ns : List Node,
    Passing c (Traced.sequence c later ns)
  | [] => by
    unfold Traced.sequence
    exact passing_nil
  | n :: rest => by
    have hrest := sequence_passing hchain later rest
    unfold Traced.sequence
    refine passing_after steady_get fun _ => ?_
    split
    · exact hrest
    · split
      · exact passing_after (steady_visit _ _) fun _ => hrest
      · exact passing_both (stmt_passing hchain n) hrest

end

/-! ## Functions -/

/-- The functions were lowered one after the other: frames grow, a function gains no slot before its turn or after it,
and what is read and written is right. -/
structure Lowered (table : FunctionTable) (options : Options) (records : List FunctionRecord) (before : Frames)
    (courses : List Course) (after : Frames) : Prop where
  grows : (before :: courses.flatMap Course.frames ++ [after]).Pairwise Frames.Extends
  others : ∀ g, (∀ r ∈ records, g < r.id) → (after.frame g).length = (before.frame g).length
  inner : ∀ t ∈ courses, ∀ g < t.function, (after.frame g).length = (t.start.frame g).length
  right : ∀ t ∈ courses, ∀ m ∈ t.moments, m.Right ⟨table, options, t.function, table.chain t.function⟩

theorem function_passing {table : FunctionTable} {options : Options} {later : List Node} {r : FunctionRecord}
    {s s' : State} {t : Course} (h : (Traced.function table options later r).run s = .ok t s')
    (hr : r.id < s.frames.frames.length) :
    t.function = r.id ∧ t.start = s.frames ∧
      Passes ⟨table, options, r.id, table.chain r.id⟩ s.frames t.moments s'.frames := by
  obtain ⟨_, s₁, hnote, h⟩ := bind_eq_ok.mp h
  obtain ⟨_, s₂, hget, h⟩ := bind_eq_ok.mp h
  obtain ⟨ms, s₃, hms, h⟩ := bind_eq_ok.mp h
  obtain ⟨rfl, rfl⟩ := pure_eq_ok.mp h
  obtain ⟨rfl, rfl⟩ := get_eq_ok.mp hget
  have hframes := steady_note _ _ _ _ hnote
  rw [← hframes] at hr ⊢
  exact ⟨rfl, rfl, sequence_passing rfl later _ _ _ _ hr hms⟩

theorem functions_lowered {table : FunctionTable} {options : Options} :
    ∀ {records : List FunctionRecord} {s s' : State}
    {courses : List Course}, (Traced.functions table options records).run s = .ok courses s' →
    records.Pairwise (fun r r' => r.id < r'.id) → (∀ r ∈ records, r.id < s.frames.frames.length) →
    Lowered table options records s.frames courses s'.frames
  | [], s, s', courses, h, _, _ => by
    obtain ⟨rfl, rfl⟩ := pure_eq_ok.mp h
    exact ⟨by simp [Frames.Extends.refl], fun _ _ => rfl, nofun, nofun⟩
  | r :: rest, s, s', courses, h, hids, hthere => by
    obtain ⟨t, s₁, ht, h⟩ := bind_eq_ok.mp h
    obtain ⟨ts, s₂, hts, h⟩ := bind_eq_ok.mp h
    obtain ⟨rfl, rfl⟩ := pure_eq_ok.mp h
    obtain ⟨hid, hstart, hpass⟩ := function_passing ht (hthere r List.mem_cons_self)
    obtain ⟨hbefore, hids⟩ := List.pairwise_cons.mp hids
    have hrest := functions_lowered hts hids fun r' hr' => hpass.whole.count ▸ hthere r' (List.mem_cons_of_mem r hr')
    -- a function around `r`, or around all functions, gains no slot
    have hsteady : ∀ g < r.id, (s₂.frames.frame g).length = (s.frames.frame g).length := fun g hg =>
      (hrest.others g fun r' hr' => Nat.lt_trans hg (hbefore r' hr')).trans (hpass.others g (Nat.ne_of_lt hg))
    constructor
    · obtain ⟨hgrows, _, hmid⟩ := List.pairwise_append.mp hpass.grows
      obtain ⟨hmid', hgrows'⟩ := List.pairwise_cons.mp hrest.grows
      have hframes : t.frames = s.frames :: t.moments.map (·.frames) := by rw [Course.frames, hstart]
      have hall : (t.frames ++ (ts.flatMap Course.frames ++ [s₂.frames])).Pairwise Frames.Extends := by
        rw [hframes]
        exact List.pairwise_append.mpr ⟨hgrows, hgrows', fun fs hfs fs' hfs' =>
          (hmid fs hfs _ (List.mem_singleton_self _)).trans (hmid' fs' hfs')⟩
      rw [List.flatMap_cons, List.cons_append, List.append_assoc, List.pairwise_cons]
      rw [hframes, List.cons_append] at hall ⊢
      exact ⟨List.forall_mem_cons.mpr ⟨.refl _, (List.pairwise_cons.mp hall).1⟩, hall⟩
    · exact fun g hg => hsteady g (hg r List.mem_cons_self)
    · refine List.forall_mem_cons.mpr ⟨fun g hg => ?_, hrest.inner⟩
      rw [hstart]
      exact hsteady g (hid ▸ hg)
    · refine List.forall_mem_cons.mpr ⟨?_, hrest.right⟩
      rw [hid]
      exact hpass.right

end Lowering

/-! ## Compiling -/

namespace FunctionTable

def outer? (t : FunctionTable) : (n : Nat) → FunctionId → Option FunctionId
  | 0, f => some f
  | n + 1, f => ((t.byId? f).bind (·.parent)).bind (t.outer? n)

theorem outer?_of_chainFrom {t : FunctionTable} : ∀ {limit n : Nat} {f g : FunctionId},
    (t.chainFrom limit f)[n]? = some g → t.outer? n f = some g
  | 0, _, _, _, h => by cases h
  | limit + 1, 0, _, _, h => h
  | limit + 1, n + 1, f, g, h => by
    rw [chainFrom, List.getElem?_cons_succ] at h
    rw [outer?]
    cases hparent : (t.byId? f).bind (·.parent) with
    | none =>
      rw [hparent] at h
      cases h
    | some p =>
      rw [hparent] at h
      exact outer?_of_chainFrom h

theorem outer?_of_chain {t : FunctionTable} {k n : Nat} {f g g' : FunctionId} (hn : (t.chain f)[n]? = some g)
    (hk : k < n) (hg' : t.outer? k f = some g') : (t.chain f)[k]? = some g' := by
  have hlt : k < (t.chain f).length := Nat.lt_trans hk (List.getElem?_eq_some_iff.mp hn).1
  have hget : (t.chain f)[k]? = some (t.chain f)[k] := List.getElem?_eq_getElem hlt
  rw [hget, ← outer?_of_chainFrom hget, hg']

theorem outer?_lt {t : FunctionTable}
    (h : ∀ {f g : FunctionId} {r : FunctionRecord}, t.records[f]? = some r → r.parent = some g → g < f) :
    ∀ {n : Nat} {f g : FunctionId}, t.outer? (n + 1) f = some g → g < f
  | n, f, g, hg => by
    rw [outer?, Option.bind_eq_some_iff] at hg
    obtain ⟨p, hp, hg⟩ := hg
    rw [Option.bind_eq_some_iff] at hp
    obtain ⟨r, hr, hparent⟩ := hp
    have hpf : p < f := h hr hparent
    cases n with
    | zero =>
      obtain rfl := Option.some.inj hg
      exact hpf
    | succ n => exact Nat.lt_trans (outer?_lt h hg) hpf

end FunctionTable

namespace Lowering

/-- What the course reads and writes, in terms of the last frames. -/
structure Course.Resolved (table : FunctionTable) (last : Frames) (t : Course) : Prop where
  reads : ∀ m ∈ t.moments, ∀ n slot x, m.access = some (.bld n slot, x) →
    ∃ g, table.outer? n t.function = some g ∧
    (last.frame g).slot? x = some slot ∧
    (∀ k < n, ∀ g', table.outer? k t.function = some g' → (m.frames.frame g').slot? x = none) ∧
    (1 ≤ n → (last.frame g).length = (t.start.frame g).length)
  writes : ∀ m ∈ t.moments, ∀ n slot x, m.access = some (.bst n slot, x) →
    n = 0 ∧ (last.frame t.function).slot? x = some slot

def history (table : FunctionTable) (courses : List Course) (last : Frames) : List Frames :=
  .ofTable table :: courses.flatMap Course.frames ++ [last]

section
variable {options : Options} {records : List FunctionRecord} {before after : Frames} {courses : List Course}

theorem Lowered.toLast {table : FunctionTable}
    (h : Lowered table options records before courses after) {fs : Frames}
    (hfs : fs ∈ before :: courses.flatMap Course.frames) : fs.Extends after :=
  (List.pairwise_append.mp h.grows).2.2 fs hfs after (List.mem_singleton_self after)

theorem Lowered.resolved {table : FunctionTable}
    (h : Lowered table options records before courses after)
    (houtward : ∀ {f g : FunctionId} {r : FunctionRecord}, table.records[f]? = some r → r.parent = some g → g < f)
    {t : Course} (ht : t ∈ courses) : t.Resolved table after := by
  have hlast : ∀ m ∈ t.moments, m.frames.Extends after := fun m hm =>
    h.toLast (List.mem_cons_of_mem _ (List.mem_flatMap.mpr ⟨t, ht, List.mem_cons_of_mem _ (List.mem_map_of_mem hm)⟩))
  constructor
  · intro m hm n slot x haccess
    obtain ⟨g, hg, hslot, hnearer⟩ := (h.right t ht m hm x).1 n slot haccess
    refine ⟨g, FunctionTable.outer?_of_chainFrom hg, (hlast m hm).slot? hslot, fun k hk g' hg' => ?_, fun hn => ?_⟩
    · exact hnearer k hk g' (FunctionTable.outer?_of_chain hg hk hg')
    · obtain ⟨n, rfl⟩ := Nat.exists_eq_add_of_le' hn
      exact h.inner t ht g (FunctionTable.outer?_lt houtward (FunctionTable.outer?_of_chainFrom hg))
  · intro m hm n slot x haccess
    obtain ⟨hn, hslot⟩ := (h.right t ht m hm x).2 n slot haccess
    exact ⟨hn, (hlast m hm).slot? hslot⟩

end

theorem names_ofTable {table : FunctionTable} {r : FunctionRecord} (hr : table.records[r.id]? = some r) :
    ((Frames.ofTable table).frame r.id).map (·.name) = r.params := by
  simp [Frames.frame, Frames.get?, Frames.ofTable, hr, Frame.ofParams, Function.comp_def]

end Lowering

theorem compileTree_eq_ok {options : Options} {source : List Char} {tree : Tree} {assembly : Assembly}
    (h : (compileTree options source tree).result = .ok assembly) : ∃ table,
      (FunctionTable.ofProgram (.ofTree source tree)).result = .ok table ∧
      (Assembly.ofTable table options).result = .ok assembly := by
  unfold compileTree Outcome.andThen at h
  split at h
  next table ht => exact ⟨table, ht, h⟩
  next => cases h

open Lowering in
/-- Whatever tree compiles, its functions are lowered by courses that read and write each variable in the slot it has
in the end. Up to there slots are added behind others, and nothing else happens to them. -/
theorem compileTree_slots {options : Options} {source : List Char} {tree : Tree} {assembly : Assembly}
    (h : (compileTree options source tree).result = .ok assembly) : ∃ table courses last,
    (FunctionTable.ofProgram (.ofTree source tree)).result = .ok table ∧
    (lower table options).run { frames := .ofTable table } = .ok assembly last ∧
    (Traced.functions table options table.records).run { frames := .ofTable table } = .ok courses last ∧
    List.Forall₂ Course.Marks courses assembly.functions ∧
    (∀ t ∈ courses, t.Resolved table last.frames) ∧
    (history table courses last.frames).Pairwise Frames.Extends ∧
    ∀ fs ∈ history table courses last.frames, ∀ r ∈ table.records, r.params <+:
      (fs.frame r.id).map (·.name) := by
  obtain ⟨table, hload, hlower⟩ := compileTree_eq_ok h
  have hsound := FunctionTable.sound_of_ofProgram (Program.ofTree_within tree) hload
  obtain ⟨last, hrun, hfunctions⟩ := Assembly.exists_of_ofTable hlower
  obtain ⟨courses, hcourses, hmarks⟩ := lowerFunctions_follows table options table.records _ _ _ hfunctions
  have hids : table.records.Pairwise fun r r' => r.id < r'.id := by
    rw [List.pairwise_iff_getElem]
    intro i k hi hk hik
    rwa [hsound.numbered (List.getElem?_eq_getElem hi), hsound.numbered (List.getElem?_eq_getElem hk)]
  have hthere : ∀ r ∈ table.records, table.records[r.id]? = some r := by
    intro r hr
    obtain ⟨f, hf⟩ := List.getElem?_of_mem hr
    rwa [hsound.numbered hf]
  have hlowered := functions_lowered hcourses hids fun r hr => by
    simpa [Frames.ofTable] using (List.getElem?_eq_some_iff.mp (hthere r hr)).1
  refine ⟨table, courses, _, hload, hrun, hcourses, hmarks, fun t ht => hlowered.resolved hsound.outward ht,
    hlowered.grows, fun fs hfs r hr => ?_⟩
  have hfirst : (Frames.ofTable table).Extends fs := by
    rcases List.mem_cons.mp hfs with rfl | hfs
    · exact .refl _
    · exact (List.pairwise_cons.mp hlowered.grows).1 fs hfs
  obtain ⟨more, hmore⟩ := hfirst.frame r.id
  rw [names_ofTable (hthere r hr)] at hmore
  exact ⟨more, hmore.symm⟩

def nestedSource : List Char :=
  "let a = 1 let f = (x) => { let g = (y) => { return a + x + y } print(g(2)) } f(3)".toList

open Lowering in
theorem compileTree_slots_of_nested : ∃ tree assembly, Tree.parse nestedSource = .ok tree ∧
    (compileTree {} nestedSource tree).result = .ok assembly ∧
    assembly.functions.map (fun f => f.code.filterMap fun i => if let .bld n slot := i then some (n, slot) else none) =
      [[], [], [(0, 0), (1, 0), (2, 0)]] ∧
    ∃ table courses last, (lower table {}).run { frames := .ofTable table } = .ok assembly last ∧
      List.Forall₂ Course.Marks courses assembly.functions ∧ (∀ t ∈ courses, t.Resolved table last.frames) ∧
      (history table courses last.frames).Pairwise Frames.Extends := by
  obtain ⟨tree, hparse, hp⟩ := Tree.exists_of_parse nestedSource (p := fun tree =>
    (compileTree {} nestedSource tree).result.toOption.any fun assembly =>
      assembly.functions.map (fun f => f.code.filterMap fun i => if let .bld n slot := i then some (n, slot) else none) =
        [[], [], [(0, 0), (1, 0), (2, 0)]]) (by decide +kernel)
  cases hcompile : (compileTree {} nestedSource tree).result with
  | error e =>
    rw [hcompile] at hp
    cases hp
  | ok assembly =>
    rw [hcompile] at hp
    obtain ⟨table, courses, last, _, hrun, _, hmarks, hresolved, hgrows, _⟩ := compileTree_slots hcompile
    exact ⟨tree, assembly, hparse, hcompile, of_decide_eq_true hp, table, courses, last, hrun,
      hmarks, hresolved, hgrows⟩

end Bies
