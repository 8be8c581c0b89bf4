import Bies.Proofs.Branches
import Bies.Proofs.FoldedNodes
import Bies.Proofs.MainCode

/-!
# Code with and without numbers put for names

Nodes that differ only in the numbers put for names are lowered side by side. The frames get the same names
in the same slots, so the codes differ only where one has a number and the other computes it. Every
instruction is labelled with the node it comes from, and a store with the node whose value it stores.
-/

namespace Bies

/-! ## Frames with the same names -/

theorem Frame.Values.seed {P : Node → Prop} :
    ∀ {F : Frame} {values : List (Option Node)}, F.Values P → (∀ v ∈ values, ∀ n, v = some n → P n) →
    (F.seed values).Values P
  | [], _, h, _ => by
    unfold Frame.seed
    exact h
  | _ :: _, [], h, _ => h
  | b :: rest, v :: values, h, hvalues => by
    obtain ⟨hb, hrest⟩ := List.forall_mem_cons.mp h
    obtain ⟨hv, hvalues⟩ := List.forall_mem_cons.mp hvalues
    exact List.forall_mem_cons.mpr ⟨hv, seed hrest hvalues⟩

namespace Frames

def names (fs : Frames) : List (List String) := fs.frames.map (·.map (·.name))

variable {fs fs' : Frames} {f : FunctionId} {name : String} {value : Option Node}

theorem names_frame (fs : Frames) (f : FunctionId) : (fs.frame f).map (·.name) = fs.names[f]?.getD [] := by
  unfold frame get? names
  rw [List.getElem?_map]
  cases fs.frames[f]? <;> rfl

theorem slot?_of_names (h : fs.names = fs'.names) (f : FunctionId) (name : String) :
    (fs.frame f).slot? name = (fs'.frame f).slot? name := by
  rw [Frame.slot?_eq, Frame.slot?_eq, names_frame, names_frame, h]

theorem resolve?_of_names (h : fs.names = fs'.names) (name : String) : ∀ chain : List FunctionId,
    (fs.resolve? name chain).map (fun r => (r.frame, r.slot)) = (fs'.resolve? name chain).map fun r => (r.frame, r.slot)
  | [] => rfl
  | f :: outer => by
    have ih := resolve?_of_names h name outer
    rw [resolve?_cons, resolve?_cons, slot?_of_names h]
    cases (fs'.frame f).slot? name with
    | some slot => rfl
    | none => simpa only [Option.map_map, Function.comp_def] using congrArg (Option.map fun p => (p.1 + 1, p.2)) ih

theorem names_bind : (fs.bind f name value).2.names =
    fs.names.modify f fun ns => if (ns.findIdx? (· = name)).isSome then ns else ns ++ [name] := by
  unfold bind
  cases hget : fs.get? f with
  | none =>
    have hnone : fs.names[f]? = none := by simpa [names, get?] using hget
    refine (List.modify_eq_self ?_).symm
    exact List.getElem?_eq_none_iff.mp hnone
  | some F =>
    apply List.ext_getElem?
    intro k
    simp only [names, List.getElem?_map, List.getElem?_modify, List.getElem?_set]
    by_cases hk : f = k
    · subst hk
      obtain ⟨hlt, rfl⟩ := List.getElem?_eq_some_iff.mp (show fs.frames[f]? = some F from hget)
      simp [hlt, Frame.names_bind, Frame.slot?_eq]
    · simp [hk]

theorem slot_bind : (fs.bind f name value).1 =
    (fs.names[f]?.map fun ns => (ns.findIdx? (· = name)).getD ns.length).getD 0 := by
  unfold bind names
  rw [List.getElem?_map]
  cases hget : fs.get? f with
  | none =>
    have hget' : fs.frames[f]? = none := hget
    rw [hget']
    rfl
  | some F =>
    have hget' : fs.frames[f]? = some F := hget
    rw [hget', Option.map_some, Option.map_some, Option.getD_some, ← Frame.slot?_eq, List.length_map]
    unfold Frame.bind
    cases hslot : F.slot? name <;> simp [hslot]

theorem names_seed_eq (values : List (Option Node)) : (fs.seed f values).names = fs.names := by
  apply List.ext_getElem?
  intro k
  simp only [names, seed, List.getElem?_map, List.getElem?_modify]
  cases fs.frames[k]? with
  | none => rfl
  | some F =>
    by_cases hk : f = k
    · simp [hk, names_seed]
    · simp [hk]

def Values (P : Node → Prop) (fs : Frames) : Prop := ∀ F ∈ fs.frames, F.Values P

section
variable {P : Node → Prop}

theorem Values.bind (h : fs.Values P) (f : FunctionId) (name : String) (hv : ∀ n, value = some n → P n) :
    (fs.bind f name value).2.Values P := by
  unfold Frames.bind
  cases hget : fs.get? f with
  | none => exact h
  | some F =>
    intro F' hF'
    rcases List.mem_or_eq_of_mem_set hF' with hF' | rfl
    · exact h F' hF'
    · exact (h F (List.mem_of_getElem? hget)).bind name hv

theorem Values.seed (h : fs.Values P) (f : FunctionId) {values : List (Option Node)}
    (hvalues : ∀ v ∈ values, ∀ n, v = some n → P n) : (fs.seed f values).Values P := by
  intro F hF
  obtain ⟨k, hk⟩ := List.getElem?_of_mem hF
  simp only [Frames.seed, List.getElem?_modify] at hk
  obtain ⟨F₀, hF₀, rfl⟩ := Option.map_eq_some_iff.mp hk
  have hF₀ := h F₀ (List.mem_of_getElem? hF₀)
  split
  · exact hF₀.seed hvalues
  · exact hF₀

theorem Values.frame (h : fs.Values P) (f : FunctionId) : (fs.frame f).Values P := by
  unfold Frames.frame
  cases hget : fs.get? f with
  | none => exact nofun
  | some F => exact h F (List.mem_of_getElem? hget)

theorem Values.resolve? (h : fs.Values P) : ∀ {chain : List FunctionId} {r : Resolved} {n : Node},
    fs.resolve? name chain = some r → r.value = some n → P n
  | f :: outer, r, n, hr, hn => by
    rw [resolve?_cons] at hr
    cases hslot : (fs.frame f).slot? name with
    | some slot =>
      rw [hslot] at hr
      obtain rfl := Option.some.inj hr
      exact (h.frame f).value? hn
    | none =>
      rw [hslot] at hr
      obtain ⟨r', hr', rfl⟩ := Option.map_eq_some_iff.mp hr
      exact Values.resolve? h hr' hn

end

theorem Extends.isSome_resolve? (h : fs.Extends fs') : ∀ {chain : List FunctionId},
    (fs.resolve? name chain).isSome = true → (fs'.resolve? name chain).isSome = true
  | f :: outer, hsome => by
    rw [resolve?_cons] at hsome ⊢
    cases hslot : (fs.frame f).slot? name with
    | some slot =>
      rw [h.slot? hslot]
      rfl
    | none =>
      rw [hslot, Option.isSome_map] at hsome
      cases (fs'.frame f).slot? name with
      | some slot => rfl
      | none =>
        rw [Option.isSome_map]
        exact h.isSome_resolve? hsome

end Frames

/-! ## Nodes without texts -/

def Node.Textless (table : FunctionTable) : Node → Prop
  | .str .. => False
  | .binary _ left _ right => left.Textless table ∧ right.Textless table
  | .call _ name _ => (table.get? name).isSome = true
  | _ => True

namespace Lowering

theorem isTextual_of_textless {c : Context} {fs : Frames} (hfs : fs.Values (Node.Textless c.table)) :
    ∀ (limit : Nat) (n : Node), n.Textless c.table → isTextual c fs limit n = false
  | 0, _, _ => rfl
  | limit + 1, n, hn => by
    cases n with
    | ident tag name =>
      rw [isTextual]
      cases hr : fs.resolve? name c.chain with
      | none => rfl
      | some r =>
        cases hv : r.value with
        | none => simp [hv]
        | some v => simp [hv, isTextual_of_textless hfs limit v (hfs.resolve? hr hv)]
    | binary tag left op right =>
      simp [isTextual, isTextual_of_textless hfs limit left hn.1, isTextual_of_textless hfs limit right hn.2]
    | call tag name args =>
      have hsome : (c.table.get? name).isSome = true := hn
      have hnone : (c.table.get? name).isNone = false := by rw [← Option.not_isSome, hsome]; rfl
      simp [isTextual, isBuiltin, hnone]
    | str => exact hn.elim
    | _ => rfl

theorem arithmeticInstruction_of_textless {c : Context} {tag : Tag} {left right : Node} {op : String} {i : Instruction}
    {s : State} (hs : s.frames.Values (Node.Textless c.table)) (hl : left.Textless c.table) (hr : right.Textless c.table)
    (hi : Instruction.arithmetic? op = some i) : (arithmeticInstruction c tag left op right).run s = .ok i s := by
  unfold arithmeticInstruction
  rw [hi]
  refine bind_eq_ok.mpr ⟨s, s, get_eq_ok.mpr ⟨rfl, rfl⟩, pure_eq_ok.mpr ⟨?_, rfl⟩⟩
  rw [isTextual_of_textless hs _ _ hl, isTextual_of_textless hs _ _ hr]
  simp

/-! ## Two computations -/

/-- From states with `I`, both computations come to results and states with `P`, or both fail with the same error. -/
def Together {α β : Type} (I : State → State → Prop) (x : Lowering α) (y : Lowering β)
    (P : α → β → State → State → Prop) : Prop :=
  ∀ s t, I s t → match x.run s, y.run t with
    | .ok a s', .ok b t' => P a b s' t'
    | .error e _, .error e' _ => e = e'
    | _, _ => False

namespace Together

variable {α β γ δ : Type} {I J : State → State → Prop} {x : Lowering α} {y : Lowering β}
  {f : α → Lowering γ}
  {g : β → Lowering δ} {P P' : α → β → State → State → Prop} {Q : γ → δ → State → State → Prop}

theorem bind (hx : Together I x y P) (hf : ∀ a b, Together (P a b) (f a) (g b) Q) :
    Together I (x >>= f) (y >>= g) Q := by
  intro s t hst
  have h := hx s t hst
  rw [EStateM.run_bind, EStateM.run_bind]
  cases hxs : x.run s <;> cases hyt : y.run t <;> rw [hxs, hyt] at h
  · exact hf _ _ _ _ h
  · exact h.elim
  · exact h.elim
  · exact h

theorem andThen {R : α → β → Prop} (hx : Together I x y fun a b s t => R a b ∧ J s t)
    (hf : ∀ a b, R a b → Together J (f a) (g b) Q) : Together I (x >>= f) (y >>= g) Q :=
  hx.bind fun a b s t h => hf a b h.1 s t h.2

theorem andThenSome {ι : Type} {K : ι → State → State → Prop} {R : ι → α → β → Prop}
    (hx : Together I x y fun a b s t => ∃ i, R i a b ∧ K i s t)
    (hf : ∀ i a b, R i a b → Together (K i) (f a) (g b) Q) : Together I (x >>= f) (y >>= g) Q := by
  refine hx.bind fun a b s t h => ?_
  obtain ⟨i, hR, hK⟩ := h
  exact hf i a b hR s t hK

theorem ret {a : α} {b : β} (h : ∀ s t, I s t → P a b s t) : Together I (pure a) (pure b) P := h

theorem fail (e : CompileError) : Together I (throw e : Lowering α) (throw e : Lowering β) P := fun _ _ _ => rfl

theorem change {k l : State → State} {P : Unit → Unit → State → State → Prop}
    (h : ∀ s t, I s t → P () () (k s) (l t)) :
    Together I (modify k) (modify l) P := h

theorem changeGet {k : State → α × State} {l : State → β × State}
    (h : ∀ s t, I s t → P (k s).1 (l t).1 (k s).2 (l t).2) : Together I (modifyGet k) (modifyGet l) P := h

theorem read {k : State → Lowering α} {l : State → Lowering β}
    (h : ∀ s t, I s t → Together (fun s' t' => s' = s ∧ t' = t ∧ I s' t') (k s) (l t) P) :
    Together I (get >>= k) (get >>= l) P :=
  fun s t hst => h s t hst s t ⟨rfl, rfl, hst⟩

theorem of_run (h : ∀ s t, I s t → ∃ a b, x.run s = .ok a s ∧ y.run t = .ok b t ∧ P a b s t) :
    Together I x y P := by
  intro s t hst
  obtain ⟨a, b, hx, hy, hP⟩ := h s t hst
  rw [hx, hy]
  exact hP

theorem imp (h : Together I x y P) (hP : ∀ a b s t, P a b s t → P' a b s t) : Together I x y P' := by
  intro s t hst
  have h := h s t hst
  cases hxs : x.run s <;> cases hyt : y.run t <;> rw [hxs, hyt] at h
  · exact hP _ _ _ _ h
  · exact h.elim
  · exact h.elim
  · exact h

theorem given {X : α → Prop} {Y : β → Prop} (h : Together I x y P) (hx : Gives x X) (hy : Gives y Y) :
    Together I x y fun a b s t => P a b s t ∧ X a ∧ Y b := by
  intro s t hst
  have h := h s t hst
  cases hxs : x.run s <;> cases hyt : y.run t <;> rw [hxs, hyt] at h
  · exact ⟨h, hx _ _ _ hxs, hy _ _ _ hyt⟩
  · exact h.elim
  · exact h.elim
  · exact h

end Together

structure Context.Paired (c c' : Context) (functions : List String) : Prop where
  options : c.options = c'.options
  function : c.function = c'.function
  chain : c.chain = c'.chain
  head : c.chain = c.function :: c.chain.tail
  get? : ∀ name, (c.table.get? name).map (fun r => (r.id, r.arity)) = (c'.table.get? name).map fun r => (r.id, r.arity)
  known : ∀ name ∈ functions, (c.table.get? name).isSome = true

theorem Context.Paired.known' {c c' : Context} {functions : List String} (hc : c.Paired c' functions)
    {name : String} (hname : name ∈ functions) :
    (c'.table.get? name).isSome = true := by
  have hsame := congrArg Option.isSome (hc.get? name)
  rw [Option.isSome_map, Option.isSome_map] at hsame
  rw [← hsame]
  exact hc.known name hname

end Lowering

/-! ## Labels -/

namespace Node

mutual

def valueLabels : Node → List NodeId
  | .binary tag left _ right => right.valueLabels ++ left.valueLabels ++ [tag.id]
  | .call tag _ args => valuesLabels args ++ [tag.id, tag.id]
  | n => [n.id]

def valuesLabels : List Node → List NodeId
  | [] => []
  | n :: rest => n.valueLabels ++ valuesLabels rest

end

mutual

def labels : Node → List NodeId
  | .decl _ _ _ v => v.valueLabels ++ [v.id]
  | .letIn _ decls body => labelsAll decls ++ body.labels
  | .block _ statements => labelsAll statements
  | .print tag args => valuesLabels args ++ [tag.id]
  | .ret tag v => v.valueLabels ++ [tag.id]
  | .funDecl .. => []
  | n => n.valueLabels

def labelsAll : List Node → List NodeId
  | [] => []
  | n :: rest => n.labels ++ labelsAll rest

end

end Node

namespace Unfolding

/-- The codes of one construct. What is known to be stored goes from `written` to `written'`; the number `top`, if there
is one, is on the stack behind them. Whatever is aligned behind the codes is so with the codes before it. -/
structure Pairs (S : Sources) (written : Nat → Option NodeId) (labels : List NodeId) (direct folded : Code)
    (written' : Nat → Option NodeId) (top : Option Number) : Prop where
  length : direct.length = labels.length
  aligned : ∀ {before : Option Number} {d : Labelled} {f : Code}, Aligned S written' top d f →
    Aligned S written before (direct.zip labels ++ d) (folded ++ f)

namespace Pairs

variable {S : Sources} {written written₁ written₂ : Nat → Option NodeId} {top top' : Option Number}
  {labels labels' : List NodeId} {a a' b b' : Code}

theorem nil : Pairs S written [] [] [] written none := ⟨rfl, fun h => h.weaken _⟩

theorem append (h : Pairs S written labels a a' written₁ top) (h' : Pairs S written₁ labels' b b' written₂ top') :
    Pairs S written (labels ++ labels') (a ++ b) (a' ++ b') written₂ top' where
  length := by simp [h.length, h'.length]
  aligned {before d f} hd := by
    rw [List.zip_append h.length, List.append_assoc, List.append_assoc]
    exact h.aligned (h'.aligned hd)

theorem same {i : Instruction} (l : NodeId) (hi : ∀ slot, i ≠ .bst 0 slot) :
    Pairs S written [l] [i] [i] written none :=
  ⟨rfl, fun h => .same l hi h⟩

theorem store (h : Pairs S written labels a a' written₁ top) {l : NodeId} (slot : Nat)
    (htop : ∀ k, S.number l = some k → top = some k) :
    Pairs S written (labels ++ [l]) (a ++ [.bst 0 slot]) (a' ++ [.bst 0 slot])
      (fun k => if k = slot then some l else written₁ k) none where
  length := by simp [h.length]
  aligned {before d f} hd := by
    rw [List.zip_append h.length, List.append_assoc, List.append_assoc]
    exact h.aligned (.store htop hd)

theorem fold {x : Literal} {k : Number} (hx : x.number? = some k) (hlength : a.length = labels.length)
    (h : Computes S written (a.zip labels) [] [k]) : Pairs S written labels a [.ldv x] written (some k) :=
  ⟨hlength, fun hd => .fold hx h hd⟩

end Pairs

/-! ## Variables in frames -/

open Lowering

/-- The variables have slots: those of the function in its own frame, where `written` says which node stored them last,
and those around it further out. -/
structure Bound (c : Context) (outer : List String) (own : Locals) (written : Nat → Option NodeId) (fs : Frames) :
    Prop where
  count : c.function < fs.frames.length
  here : ∀ {name o}, own.lookup name = some o → ∃ slot, (fs.frame c.function).slot? name = some slot ∧
    written slot = o
  elsewhere : ∀ {name}, name ∈ outer → own.lookup name = none → (fs.frame c.function).slot? name = none
  around : ∀ {name}, name ∈ outer → (fs.resolve? name c.chain.tail).isSome = true

namespace Bound

variable {c : Context} {outer : List String} {own : Locals} {written : Nat → Option NodeId}
  {fs : Frames} {name : String}

theorem count_bind (h : Bound c outer own written fs) (value : Option Node) :
    c.function < (fs.bind c.function name value).2.frames.length := by
  rw [(Frames.extends_bind h.count).count]
  exact h.count

theorem bindImplicitly (h : Bound c outer own written fs) (hchain : c.chain = c.function :: c.chain.tail)
    (hname : fs.resolve? name c.chain = none) : Bound c outer own written (fs.bind c.function name none).2 := by
  rw [hchain, Frames.resolve?_cons] at hname
  have hslot : (fs.frame c.function).slot? name = none := by
    cases hslot : (fs.frame c.function).slot? name with
    | none => rfl
    | some slot =>
      rw [hslot] at hname
      cases hname
  rw [hslot, Option.map_eq_none_iff] at hname
  refine ⟨h.count_bind none, fun {other o} hother => ?_, fun {other} hother hnone => ?_, fun {other} hother => ?_⟩
  · obtain ⟨slot, hfound, hwritten⟩ := h.here hother
    have hne : other ≠ name := by
      rintro rfl
      rw [hslot] at hfound
      cases hfound
    refine ⟨slot, ?_, hwritten⟩
    rw [(Frames.frame_bind h.count).2, Frame.slot?_bind_ne _ _ hne, hfound]
  · have hne : other ≠ name := by
      rintro rfl
      have := h.around hother
      rw [hname] at this
      cases this
    rw [(Frames.frame_bind h.count).2, Frame.slot?_bind_ne _ _ hne]
    exact h.elsewhere hother hnone
  · exact (Frames.extends_bind h.count).isSome_resolve? (h.around hother)

theorem declare (h : Bound c outer own written fs) (name : String) (value : Option Node) (j : NodeId) :
    Bound c outer ((name, some j) :: own) (fun k => if k = (fs.bind c.function name value).1 then some j else written k)
      (fs.bind c.function name value).2 := by
  refine ⟨h.count_bind value, fun {other o} hother => ?_, fun {other} hother hnone => ?_, fun {other} hother => ?_⟩
  · by_cases hne : other = name
    · subst hne
      rw [List.lookup_cons_self] at hother
      exact ⟨_, Frames.slot?_bind h.count, by rw [if_pos rfl, Option.some.inj hother]⟩
    · rw [List.lookup_cons, beq_eq_false_iff_ne.mpr hne] at hother
      obtain ⟨slot, hfound, hwritten⟩ := h.here hother
      have hfound' : ((fs.bind c.function name value).2.frame c.function).slot? other = some slot := by
        rw [(Frames.frame_bind h.count).2, Frame.slot?_bind_ne _ _ hne, hfound]
      refine ⟨slot, hfound', ?_⟩
      have hslot : slot ≠ (fs.bind c.function name value).1 := by
        rintro rfl
        exact hne (Frame.slot?_inj hfound' (Frames.slot?_bind h.count))
      rw [if_neg hslot, hwritten]
  · have hne : other ≠ name := by
      rintro rfl
      rw [List.lookup_cons_self] at hnone
      cases hnone
    rw [List.lookup_cons, beq_eq_false_iff_ne.mpr hne] at hnone
    rw [(Frames.frame_bind h.count).2, Frame.slot?_bind_ne _ _ hne]
    exact h.elsewhere hother hnone
  · exact (Frames.extends_bind h.count).isSome_resolve? (h.around hother)

theorem of_names {fs' : Frames} (h : Bound c outer own written fs) (hnames : fs'.names = fs.names) :
    Bound c outer own written fs' := by
  refine ⟨?_, fun {name o} hname => ?_, fun {name} hname hnone => ?_, fun {name} hname => ?_⟩
  · have hlength := congrArg List.length hnames
    simp only [Frames.names, List.length_map] at hlength
    rw [hlength]
    exact h.count
  · rw [Frames.slot?_of_names hnames]
    exact h.here hname
  · rw [Frames.slot?_of_names hnames]
    exact h.elsewhere hname hnone
  · have hresolved := congrArg Option.isSome (Frames.resolve?_of_names hnames name c.chain.tail)
    rw [Option.isSome_map, Option.isSome_map] at hresolved
    rw [hresolved]
    exact h.around hname

/-- A name whose number is put for it is found, in the function itself only if its source was stored last. -/
theorem resolve?_of_worth (h : Bound c outer own written fs) (hchain : c.chain = c.function :: c.chain.tail) {j : NodeId}
    (hown : ∀ o, own.lookup name = some o → o = some j) (houter : own.lookup name = none → name ∈ outer) :
    ∃ r, fs.resolve? name c.chain = some r ∧ (r.frame = 0 → written r.slot = some j) := by
  rw [hchain, Frames.resolve?_cons]
  cases hlookup : own.lookup name with
  | some o =>
    obtain ⟨slot, hslot, hwritten⟩ := h.here hlookup
    rw [hslot]
    refine ⟨_, rfl, fun _ => ?_⟩
    rw [hwritten, hown o hlookup]
  | none =>
    have hname := houter hlookup
    rw [h.elsewhere hname hlookup]
    obtain ⟨r, hr⟩ := Option.isSome_iff_exists.mp (h.around hname)
    rw [hr]
    exact ⟨_, rfl, fun hzero => by cases hzero⟩

end Bound

/-- Two states of lowering a function in two ways. Its frames have grown from `before`, and only its own has got more
slots. -/
structure Beside (c c' : Context) (before : Frames) (outer : List String) (own : Locals)
    (written : Nat → Option NodeId) (s t : State) : Prop where
  names : s.frames.names = t.frames.names
  plain : s.frames.Values (Node.Textless c.table)
  plain' : t.frames.Values (Node.Textless c'.table)
  bound : Bound c outer own written s.frames
  grown : before.Extends s.frames
  others : ∀ g ≠ c.function, (s.frames.frame g).map (·.name) = (before.frame g).map (·.name)

section
variable {S : Sources} {functions : List String} {c c' : Context} {before : Frames} {outer : List String}
  {own own' : Locals} {written written' : Nat → Option NodeId} {s t s' t' : State}

namespace Beside

theorem aside (h : Beside c c' before outer own written s t) (hs : s'.frames = s.frames) (ht : t'.frames = t.frames) :
    Beside c c' before outer own written s' t' := by
  obtain ⟨h₁, h₂, h₃, h₄, h₅, h₆⟩ := h
  constructor <;> simpa only [hs, ht]

theorem bind (h : Beside c c' before outer own written s t) {name : String} {v v' : Option Node}
    (hv : ∀ n, v = some n → n.Textless c.table) (hv' : ∀ n, v' = some n → n.Textless c'.table)
    (hbound : Bound c outer own' written' (s.frames.bind c.function name v).2)
    (hs : s'.frames = (s.frames.bind c.function name v).2) (ht : t'.frames = (t.frames.bind c.function name v').2) :
    Beside c c' before outer own' written' s' t' where
  names := by rw [hs, ht, Frames.names_bind, Frames.names_bind, h.names]
  plain := hs ▸ h.plain.bind _ _ hv
  plain' := ht ▸ h.plain'.bind _ _ hv'
  bound := hs ▸ hbound
  grown := hs ▸ h.grown.trans (Frames.extends_bind h.bound.count)
  others g hg := by
    rw [hs, Frames.frame_bind_ne hg]
    exact h.others g hg

theorem seed (h : Beside c c' before outer own written s t) (g : FunctionId) {values values' : List (Option Node)}
    (hvalues : ∀ v ∈ values, ∀ n, v = some n → n.Textless c.table)
    (hvalues' : ∀ v ∈ values', ∀ n, v = some n → n.Textless c'.table) (hs : s'.frames = s.frames.seed g values)
    (ht : t'.frames = t.frames.seed g values') : Beside c c' before outer own written s' t' where
  names := by rw [hs, ht, Frames.names_seed_eq, Frames.names_seed_eq, h.names]
  plain := hs ▸ h.plain.seed g hvalues
  plain' := ht ▸ h.plain'.seed g hvalues'
  bound := hs ▸ h.bound.of_names (Frames.names_seed_eq values)
  grown := hs ▸ h.grown.trans (Frames.extends_seed values)
  others k hk := by
    rw [hs, Frames.names_frame_seed]
    exact h.others k hk

end Beside

theorem loadName_together (hc : c.Paired c' functions) (name : String) (span : Span) :
    Together (Beside c c' before outer own written) (loadName c name span) (loadName c' name span) fun i j s t =>
      (i = j ∧ ∀ slot, i ≠ .bst 0 slot) ∧ Beside c c' before outer own written s t := by
  unfold loadName
  refine .read fun s t h => ?_
  have hresolve := Frames.resolve?_of_names h.names name c.chain
  rw [← hc.chain]
  cases hr : s.frames.resolve? name c.chain with
  | some r =>
    cases hr' : t.frames.resolve? name c.chain with
    | none =>
      rw [hr, hr'] at hresolve
      cases hresolve
    | some r' =>
      rw [hr, hr'] at hresolve
      obtain ⟨hframe, hslot⟩ := Prod.mk.inj (Option.some.inj hresolve)
      exact .ret fun _ _ h => ⟨⟨by rw [hframe, hslot], nofun⟩, h.2.2⟩
  | none =>
    rw [hr] at hresolve
    rw [Option.map_eq_none_iff.mp hresolve.symm]
    dsimp only
    have hget := hc.get? name
    cases hf : c.table.get? name with
    | some f =>
      cases hf' : c'.table.get? name with
      | none =>
        rw [hf, hf'] at hget
        cases hget
      | some f' =>
        rw [hf, hf'] at hget
        have hid := (Prod.mk.inj (Option.some.inj hget)).1
        exact .ret fun _ _ h => ⟨⟨by rw [hid], nofun⟩, h.2.2⟩
    | none =>
      rw [hf] at hget
      rw [Option.map_eq_none_iff.mp hget.symm, ← hc.options]
      dsimp only
      cases c.options.unbound with
      | reject => exact .fail _
      | implicitBinding =>
        have hbind : Together (fun s' t' => s' = s ∧ t' = t ∧ Beside c c' before outer own written s' t')
            (Lowering.bind c name none) (Lowering.bind c' name none) fun slot slot' s' t' =>
              slot = slot' ∧ Beside c c' before outer own written s' t' := by
          refine .changeGet ?_
          rintro _ _ ⟨rfl, rfl, h⟩
          rw [← hc.function]
          refine ⟨?_, h.bind (by rintro _ ⟨⟩) (by rintro _ ⟨⟩) (h.bound.bindImplicitly hc.head hr) rfl rfl⟩
          show (Frames.bind ..).1 = (Frames.bind ..).1
          rw [Frames.slot_bind, Frames.slot_bind, h.names]
        refine .bind hbind fun slot slot' => ?_
        have hnote : Together (fun s' t' => slot = slot' ∧ Beside c c' before outer own written s' t')
            (note (.boundImplicitly name slot span)) (note (.boundImplicitly name slot' span)) fun _ _ s' t' =>
              slot = slot' ∧ Beside c c' before outer own written s' t' :=
          .change fun _ _ h => ⟨h.1, h.2.aside rfl rfl⟩
        exact .bind hnote fun _ _ => .ret fun _ _ h => ⟨⟨by rw [h.1], nofun⟩, h.2⟩

section
variable {n d : Node} {k : Number} {table : FunctionTable} {fs : Frames} {args : List Node}

theorem value_of_number (c : Context) (h : n.number? = some k) :
    ∃ x : Literal, x.number? = some k ∧ Plain.value c n = pure [.ldv x] := by
  cases n with
  | int tag i => exact ⟨.int i, h, by unfold Plain.value; rfl⟩
  | float tag x => exact ⟨.float x, h, by unfold Plain.value; rfl⟩
  | _ => cases h

theorem textless_of_number (h : n.number? = some k) : n.Textless table := by
  cases n with
  | int => trivial
  | float => trivial
  | _ => cases h

theorem Worth.textless (h : Worth S own outer d k) : d.Textless table := by
  induction h with
  | literal h => exact textless_of_number h
  | ident => trivial
  | binary _ _ _ _ _ ihl ihr => exact ⟨ihl, ihr⟩

theorem exists_arithmetic? {op : String} (hop : op ∈ ["+", "-", "*"]) :
    ∃ i, Instruction.arithmetic? op = some i ∧ ∀ slot, i ≠ .bst 0 slot := by
  simp only [List.mem_cons, List.not_mem_nil, or_false] at hop
  rcases hop with rfl | rfl | rfl
  · exact ⟨.add, rfl, by simp⟩
  · exact ⟨.sub, rfl, by simp⟩
  · exact ⟨.mul, rfl, by simp⟩

/-- The code for a value that has a number computes it, and nothing changes. -/
theorem value_of_worth (hchain : c.chain = c.function :: c.chain.tail) (hplain : s.frames.Values (Node.Textless c.table))
    (hbound : Bound c outer own written s.frames) (h : Worth S own outer d k) :
    ∃ code, (Plain.value c d).run s = .ok code s ∧ code.length = d.valueLabels.length ∧
      Computes S written (code.zip d.valueLabels) [] [k] := by
  induction h with
  | @literal n k h =>
    obtain ⟨x, hx, hvalue⟩ := value_of_number c h
    have hlabels : n.valueLabels = [n.id] := by cases n <;> first | rfl | cases h
    rw [hvalue, hlabels]
    exact ⟨_, rfl, rfl, .push (.literal _ hx) (.nil _)⟩
  | @ident tag name j k hput hk hown houter =>
    obtain ⟨r, hr, hsource⟩ := hbound.resolve?_of_worth hchain hown houter
    have hload : (loadName c name tag.span).run s = .ok (.bld r.frame r.slot) s := by
      unfold loadName
      refine bind_eq_ok.mpr ⟨s, s, get_eq_ok.mpr ⟨rfl, rfl⟩, ?_⟩
      rw [hr]
      rfl
    refine ⟨[.bld r.frame r.slot], ?_, rfl, .push (.put hput hk hsource) (.nil _)⟩
    unfold Plain.value
    exact bind_eq_ok.mpr ⟨_, _, hload, rfl⟩
  | @binary left right op a b e tag hop hl hr hcombine ihl ihr =>
    obtain ⟨i, hi, -⟩ := exists_arithmetic? hop
    obtain ⟨leftCode, hleft, hleftLength, hleftComputes⟩ := ihl
    obtain ⟨rightCode, hright, hrightLength, hrightComputes⟩ := ihr
    refine ⟨rightCode ++ leftCode ++ [i], ?_, ?_, ?_⟩
    · unfold Plain.value
      exact bind_eq_ok.mpr ⟨_, _, arithmeticInstruction_of_textless hplain hl.textless hr.textless hi,
        bind_eq_ok.mpr ⟨_, _, hright, bind_eq_ok.mpr ⟨_, _, hleft, rfl⟩⟩⟩
    · simp [Node.valueLabels, hleftLength, hrightLength]
    · rw [Node.valueLabels, List.zip_append (by simp [hleftLength, hrightLength]), List.zip_append hrightLength]
      exact (hrightComputes.append (hleftComputes.frame [b])).append
        (.apply (operator?_of_arithmetic? hi) hcombine (.nil _))

theorem FoldsTo.textless (hc : c.Paired c' functions) : ∀ {d n : Node}, FoldsTo S functions own outer d n →
    d.Textless c.table ∧ n.Textless c'.table
  | _, _, .known hd hn => ⟨hd.textless, textless_of_number hn⟩
  | _, _, .ident .. => ⟨trivial, trivial⟩
  | _, _, .binary _ _ hl hr => by
    obtain ⟨hleft, hleft'⟩ := FoldsTo.textless hc hl
    obtain ⟨hright, hright'⟩ := FoldsTo.textless hc hr
    exact ⟨⟨hleft, hright⟩, hleft', hright'⟩
  | _, _, .call _ hname _ => ⟨hc.known _ hname, hc.known' hname⟩

theorem AllFoldTo.textless (hc : c.Paired c' functions) :
    ∀ {ds ns : List Node}, AllFoldTo S functions own outer ds ns → ds.length = ns.length ∧
      (∀ d ∈ ds, d.Textless c.table) ∧ ∀ n ∈ ns, n.Textless c'.table
  | _, _, .nil => ⟨rfl, nofun, nofun⟩
  | _, _, .cons h hrest => by
    obtain ⟨hd, hn⟩ := h.textless hc
    obtain ⟨hlength, hds, hns⟩ := AllFoldTo.textless hc hrest
    exact ⟨congrArg (· + 1) hlength, List.forall_mem_cons.mpr ⟨hd, hds⟩, List.forall_mem_cons.mpr ⟨hn, hns⟩⟩

theorem parameterValues_textless {P : Node → Prop} {callee : FunctionRecord} (hfs : fs.Values P)
    (hargs : ∀ n ∈ args, P n) : ∀ v ∈ parameterValues c fs callee args, ∀ n, v = some n → P n := by
  intro v hv n hn
  obtain ⟨i, -, rfl⟩ := List.mem_map.mp hv
  cases hcallee : c.options.callee with
  | callArguments =>
    rw [hcallee] at hn
    exact hargs n (List.mem_of_getElem? hn)
  | callerPrefix =>
    rw [hcallee] at hn
    obtain ⟨F, hF, hn⟩ := Option.bind_eq_some_iff.mp hn
    exact (hfs F (List.mem_of_getElem? hF)).value? hn

theorem isBuiltin_of_known {name : String} (h : (c.table.get? name).isSome = true) :
    isBuiltin c fs name = false := by
  have hnone : (c.table.get? name).isNone = false := by
    rw [← Option.not_isSome, h]
    rfl
  rw [isBuiltin, hnone, Bool.and_false]

theorem finishCall_together (hc : c.Paired c' functions) (tag : Tag) {name : String} {args' : List Node}
    (hname : name ∈ functions) (hargs : AllFoldTo S functions own outer args args') :
    Together (Beside c c' before outer own written) (finishCall c tag name args) (finishCall c' tag name args')
      fun code code' s t => Pairs S written [tag.id, tag.id] code code' written none ∧
        Beside c c' before outer own written s t := by
  obtain ⟨hlength, htextless, htextless'⟩ := hargs.textless hc
  unfold finishCall
  refine .read fun s t _ => ?_
  rw [isBuiltin_of_known (hc.known name hname), isBuiltin_of_known (hc.known' hname)]
  simp only [Bool.false_eq_true, if_false]
  have hload : Together (fun s' t' => s' = s ∧ t' = t ∧ Beside c c' before outer own written s' t')
    (loadName c name tag.span)
      (loadName c' name tag.span) fun i j s t => (i = j ∧ ∀ slot, i ≠ .bst 0 slot) ∧
        Beside c c' before outer own written s t :=
    fun s' t' h => loadName_together hc name tag.span s' t' h.2.2
  refine hload.andThen fun i j hij => ?_
  obtain ⟨callee, hcallee⟩ := Option.isSome_iff_exists.mp (hc.known name hname)
  obtain ⟨callee', hcallee'⟩ := Option.isSome_iff_exists.mp (hc.known' hname)
  have hsame := hc.get? name
  rw [hcallee, hcallee'] at hsame
  have hid : callee.id = callee'.id := (Prod.mk.inj (Option.some.inj hsame)).1
  rw [hcallee, hcallee']
  have hseed : Together (Beside c c' before outer own written)
      (modify fun s => { s with frames := s.frames.seed callee.id (parameterValues c s.frames callee args) })
      (modify fun t => { t with frames := t.frames.seed callee'.id (parameterValues c' t.frames callee' args') })
      fun _ _ s t => Beside c c' before outer own written s t := by
    refine .change fun s t h => ?_
    rw [← hid]
    exact h.seed callee.id (parameterValues_textless h.plain htextless)
      (parameterValues_textless h.plain' htextless') rfl rfl
  obtain ⟨rfl, hi⟩ := hij
  rw [← hlength]
  exact .bind hseed fun _ _ => .ret fun _ _ h => ⟨(Pairs.same tag.id hi).append (Pairs.same tag.id nofun), h⟩

end

mutual

theorem value_together (hc : c.Paired c' functions) : ∀ {d n : Node}, FoldsTo S functions own outer d n →
    Together (Beside c c' before outer own written) (Plain.value c d) (Plain.value c' n) fun code code' s t =>
      Pairs S written d.valueLabels code code' written n.number? ∧ Beside c c' before outer own written s t
  | _, n, .known hd hn => by
    refine .of_run fun s t h => ?_
    obtain ⟨code, hrun, hlength, hcomputes⟩ := value_of_worth hc.head h.plain h.bound hd
    obtain ⟨x, hx, hvalue⟩ := value_of_number c' hn
    rw [hvalue, hn]
    exact ⟨code, [.ldv x], hrun, rfl, .fold hx hlength hcomputes, h⟩
  | _, _, .ident tag name => by
    unfold Plain.value
    refine (loadName_together hc name tag.span).andThen fun i j hij => ?_
    obtain ⟨rfl, hi⟩ := hij
    exact .ret fun _ _ h => ⟨.same tag.id hi, h⟩
  | .binary _ left op right, .binary _ left' _ right', .binary tag hop hl hr => by
    obtain ⟨i, hi, hstore⟩ := exists_arithmetic? hop
    obtain ⟨hleft, hleft'⟩ := hl.textless hc
    obtain ⟨hright, hright'⟩ := hr.textless hc
    have hinstruction : Together (Beside c c' before outer own written) (arithmeticInstruction c tag left op right)
        (arithmeticInstruction c' tag left' op right') fun j j' s t => (i = j ∧ i = j') ∧
          Beside c c' before outer own written s t :=
      .of_run fun s t h => ⟨i, i, arithmeticInstruction_of_textless h.plain hleft hright hi,
        arithmeticInstruction_of_textless h.plain' hleft' hright' hi, ⟨rfl, rfl⟩, h⟩
    unfold Plain.value
    refine hinstruction.andThen fun j j' hj => ?_
    obtain ⟨rfl, rfl⟩ := hj
    exact (value_together hc hr).andThen fun b b' hb => (value_together hc hl).andThen fun a a' ha =>
      .ret fun _ _ h => ⟨(hb.append ha).append (.same tag.id hstore), h⟩
  | _, _, .call tag hname hargs => by
    unfold Plain.value
    exact (values_together hc hargs).andThen fun a a' ha => (finishCall_together hc tag hname hargs).andThen
      fun b b' hb =>
      .ret fun _ _ h => ⟨ha.append hb, h⟩

theorem values_together (hc : c.Paired c' functions) : ∀ {ds ns : List Node}, AllFoldTo S functions own outer ds ns →
    Together (Beside c c' before outer own written) (Plain.values c ds) (Plain.values c' ns) fun code code' s t =>
      Pairs S written (Node.valuesLabels ds) code code' written none ∧ Beside c c' before outer own written s t
  | _, _, .nil => by
    unfold Plain.values
    exact .ret fun s t h => ⟨.nil, h⟩
  | _, _, .cons h hrest => by
    unfold Plain.values
    exact (value_together hc h).andThen fun a a' ha => (values_together hc hrest).andThen fun b b' hb =>
      .ret fun _ _ h => ⟨ha.append hb, h⟩

end

/-! ## Statements -/

theorem endsInRet_of_straight {code : Code} (h : code.Straight) : code.endsInRet = false := by
  have hnoRet : code.NoRet := by
    intro i hi
    have hstraight := h i hi
    cases i <;> first | rfl | cases hstraight
  exact hnoRet.endsInRet

theorem bind_together (hc : c.Paired c' functions) (name : String) {v v' : Node} (hv : v.Textless c.table)
    (hv' : v'.Textless c'.table) : Together (Beside c c' before outer own written) (Lowering.bind c name (some v))
      (Lowering.bind c' name (some v')) fun slot slot' s t => slot = slot' ∧
        Beside c c' before outer ((name, some v.id) :: own)
          (fun k => if k = slot then some v.id else written k) s t := by
  refine .changeGet fun s t h => ?_
  rw [← hc.function]
  refine ⟨?_, h.bind ?_ ?_ (h.bound.declare name (some v) v.id) rfl rfl⟩
  · show (Frames.bind ..).1 = (Frames.bind ..).1
    rw [Frames.slot_bind, Frames.slot_bind, h.names]
  · rintro _ ⟨⟩
    exact hv
  · rintro _ ⟨⟩
    exact hv'

mutual

theorem stmt_together (hc : c.Paired c' functions) :
    ∀ {own own' : Locals} {d n : Node} {written : Nat → Option NodeId},
    StmtFoldsTo S functions outer own d n own' →
    Together (Beside c c' before outer own written) (Plain.stmt c d) (Plain.stmt c' n) fun code code' s t =>
      ∃ written', Pairs S written d.labels code code' written' none ∧ Beside c c' before outer own' written' s t
  | _, _, .decl _ _ _ v, _, written, .decl tag constant name hv hk => by
    obtain ⟨hplain, hplain'⟩ := hv.textless hc
    unfold Plain.stmt
    refine (value_together hc hv).andThen fun a a' ha => .bind (bind_together hc name hplain hplain')
      fun slot slot' => .ret ?_
    rintro s t ⟨rfl, h⟩
    exact ⟨_, ha.store slot fun k hnumber => hk ▸ hnumber, h⟩
  | _, _, _, _, written, .funDecl .. => by
    unfold Plain.stmt
    exact .ret fun s t h => ⟨written, .nil, h⟩
  | _, _, _, _, written, .letIn _ _ _ _ hds hss => by
    unfold Plain.stmt Plain.stmt
    exact (stmts_together hc hds).andThenSome fun written₁ a a' ha => (stmts_together hc hss).andThenSome
      fun written₂ b b' hb =>
      .ret fun s t h => ⟨written₂, ha.append hb, h⟩
  | _, _, _, _, written, .print tag hargs => by
    unfold Plain.stmt
    exact (values_together hc hargs).andThen fun a a' ha =>
      .ret fun s t h => ⟨written, ha.append (.same tag.id nofun), h⟩
  | _, _, _, _, written, .ret tag hv => by
    unfold Plain.stmt
    refine ((value_together hc hv).given (value_straight _) (value_straight _)).bind fun a a' => ?_
    rintro s t ⟨⟨ha, h⟩, hstraight, hstraight'⟩
    rw [endsInRet_of_straight hstraight, endsInRet_of_straight hstraight']
    exact ⟨written, ha.append (.same tag.id nofun), h⟩
  | _, _, _, _, written, .call tag hname hargs => by
    unfold Plain.stmt
    exact (value_together hc (.call tag hname hargs)).imp fun a a' s t h => ⟨written, h.1, h.2⟩

theorem stmts_together (hc : c.Paired c' functions) :
    ∀ {own own' : Locals} {ds ns : List Node} {written : Nat → Option NodeId},
    StmtsFoldTo S functions outer own ds ns own' →
    Together (Beside c c' before outer own written) (Plain.stmts c ds) (Plain.stmts c' ns) fun code code' s t =>
      ∃ written', Pairs S written (Node.labelsAll ds) code code' written' none ∧
        Beside c c' before outer own' written' s t
  | _, _, _, _, written, .nil _ => by
    unfold Plain.stmts
    exact .ret fun s t h => ⟨written, .nil, h⟩
  | _, _, _, _, written, .cons h hrest => by
    unfold Plain.stmts
    exact (stmt_together hc h).andThenSome fun written₁ a a' ha => (stmts_together hc hrest).andThenSome
      fun written₂ b b' hb =>
      .ret fun s t h => ⟨written₂, ha.append hb, h⟩

end

end

end Unfolding
end Bies
