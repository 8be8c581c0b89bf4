import Bies.Proofs.LoadingSimulation
import Bies.Proofs.Sharing
import Bies.Proofs.SideBySide

/-!
# Other numbers

A renumbering pairs numbers of nodes, one for one. Nodes are alike if they have one shape and their numbers are
paired, and so are tables, scopes and frames that hold them. Names that the program has stand for themselves; a
name made from a number stands for the one made from its partner. What loading and lowering look up, compare and
compute is the same on both sides.
-/

namespace Bies

open List

/-! ## Lists of related items -/

section
variable {α β : Type} {R : α → β → Prop} {xs : List α} {ys : List β}

theorem rel_cases {a : Option α} {b : Option β} (h : Option.Rel R a b) :
    a = none ∧ b = none ∨ ∃ x y, a = some x ∧ b = some y ∧ R x y := by
  cases h with
  | none => exact .inl ⟨rfl, rfl⟩
  | some h => exact .inr ⟨_, _, rfl, rfl, h⟩

theorem forall₂_getElem? (h : Forall₂ R xs ys) (i : Nat) : Option.Rel R xs[i]? ys[i]? := by
  induction h generalizing i with
  | nil => exact .none
  | cons hab _ ih =>
    cases i with
    | zero => exact .some hab
    | succ i => exact ih i

theorem forall₂_find? {p : α → Bool} {q : β → Bool} (h : Forall₂ R xs ys)
    (hpq : ∀ a b, R a b → p a = q b) : Option.Rel R (xs.find? p) (ys.find? q) := by
  induction h with
  | nil => exact .none
  | @cons a b _ _ hab _ ih =>
    rw [List.find?_cons, List.find?_cons, hpq a b hab]
    cases q b with
    | true => exact .some hab
    | false => exact ih

theorem forall₂_findIdx? {p : α → Bool} {q : β → Bool} (h : Forall₂ R xs ys)
    (hpq : ∀ a b, R a b → p a = q b) : xs.findIdx? p = ys.findIdx? q := by
  induction h with
  | nil => rfl
  | @cons a b _ _ hab _ ih => rw [List.findIdx?_cons, List.findIdx?_cons, hpq a b hab, ih]

theorem forall₂_modify {f : α → α} {g : β → β} (h : Forall₂ R xs ys)
    (hfg : ∀ a b, R a b → R (f a) (g b)) (i : Nat) : Forall₂ R (xs.modify i f) (ys.modify i g) := by
  induction h generalizing i with
  | nil => simp
  | cons hab htail ih =>
    cases i with
    | zero => simpa using ⟨hfg _ _ hab, htail⟩
    | succ i => simpa using ⟨hab, ih i⟩

theorem forall₂_set (h : Forall₂ R xs ys) {a : α} {b : β} (hab : R a b) (i : Nat) :
    Forall₂ R (xs.set i a) (ys.set i b) := by
  induction h generalizing i with
  | nil => exact .nil
  | cons hhead htail ih =>
    cases i with
    | zero => exact .cons hab htail
    | succ i => exact .cons hhead (ih i)

end

/-! ## Numbers, names and nodes -/

/-- Numbers that stand for each other, one for one, in nodes with spans that do. -/
structure Renumbering (spans : Span → Span → Prop) where
  pairs : NodeId → NodeId → Prop
  unique : ∀ {i i' j j' : NodeId}, pairs i i' → pairs j j' → (i = j ↔ i' = j')

def IsPlain (name : String) : Prop := '#' ∉ name.toList

variable {spans : Span → Span → Prop}

namespace Renumbering

instance : Preorder (Renumbering spans) where
  le w w' := ∀ i i', w.pairs i i' → w'.pairs i i'
  le_refl _ _ _ h := h
  le_trans _ _ _ h₁ h₂ i i' h := h₂ i i' (h₁ i i' h)

def add (w : Renumbering spans) {k k' : NodeId} (hk : ∀ i i', w.pairs i i' → i ≠ k ∧ i' ≠ k') :
    Renumbering spans where
  pairs i i' := w.pairs i i' ∨ i = k ∧ i' = k'
  unique := by
    rintro i i' j j' (h | ⟨rfl, rfl⟩) (h' | ⟨rfl, rfl⟩)
    · exact w.unique h h'
    · exact ⟨fun he => absurd he (hk _ _ h).1, fun he => absurd he (hk _ _ h).2⟩
    · exact ⟨fun he => absurd he.symm (hk _ _ h').1, fun he => absurd he.symm (hk _ _ h').2⟩
    · exact ⟨fun _ => rfl, fun _ => rfl⟩

variable {w w' : Renumbering spans}

def Tags (w : Renumbering spans) (t t' : Tag) : Prop := w.pairs t.id t'.id ∧ spans t.span t'.span

variable (w) in
inductive Names : String → String → Prop where
  | plain {name} : IsPlain name → Names name name
  | lambda {i j} : w.pairs i j → Names s!"lambda#{i}" s!"lambda#{j}"
  | input {i j} : w.pairs i j → Names s!"{Lowering.inputName}#{i}" s!"{Lowering.inputName}#{j}"

theorem Names.mono (hw : w ≤ w') {x x' : String} : w.Names x x' → w'.Names x x'
  | .plain h => .plain h
  | .lambda h => .lambda (hw _ _ h)
  | .input h => .input (hw _ _ h)

theorem inputName_injective {i k : NodeId} (h : s!"{Lowering.inputName}#{i}" = s!"{Lowering.inputName}#{k}") : i = k :=
  Nat.repr_injective ((String.append_right_inj _).mp h)

theorem hash_mem_inputName (k : NodeId) : '#' ∈ (s!"{Lowering.inputName}#{k}").toList := by
  simp [toString]

theorem lambdaName_ne_inputName (i k : NodeId) : s!"lambda#{i}" ≠ s!"{Lowering.inputName}#{k}" := by
  intro h
  have hhead := congrArg (fun x => x.toList.head?) h
  simp [toString, Lowering.inputName] at hhead

theorem Names.eq_iff {x x' y y' : String} (hx : w.Names x x') (hy : w.Names y y') : x = y ↔ x' = y' := by
  have hlambda : ∀ {x : String}, IsPlain x → ∀ i : NodeId, x ≠ s!"lambda#{i}" :=
    fun hx i h => hx (h ▸ Loading.hash_mem_lambdaName i)
  have hinput : ∀ {x : String}, IsPlain x → ∀ i : NodeId, x ≠ s!"{Lowering.inputName}#{i}" :=
    fun hx i h => hx (h ▸ hash_mem_inputName i)
  cases hx with
  | plain hx =>
    cases hy with
    | plain => exact Iff.rfl
    | lambda => exact iff_of_false (hlambda hx _) (hlambda hx _)
    | input => exact iff_of_false (hinput hx _) (hinput hx _)
  | lambda hx =>
    cases hy with
    | plain hy => exact iff_of_false (hlambda hy _).symm (hlambda hy _).symm
    | lambda hy =>
      have := w.unique hx hy
      exact ⟨fun h => by rw [this.mp (Loading.lambdaName_injective h)],
        fun h => by rw [this.mpr (Loading.lambdaName_injective h)]⟩
    | input => exact iff_of_false (lambdaName_ne_inputName _ _) (lambdaName_ne_inputName _ _)
  | input hx =>
    cases hy with
    | plain hy => exact iff_of_false (hinput hy _).symm (hinput hy _).symm
    | lambda => exact iff_of_false (lambdaName_ne_inputName _ _).symm (lambdaName_ne_inputName _ _).symm
    | input hy =>
      have := w.unique hx hy
      exact ⟨fun h => by rw [this.mp (inputName_injective h)], fun h => by rw [this.mpr (inputName_injective h)]⟩

end Renumbering

inductive Node.Alike (w : Renumbering spans) : Node → Node → Prop where
  | mk {n n'} : n.Paired w.Tags IsPlain (Alike w) n' → Alike w n n'

theorem Node.sizeOf_lt_of_mem_children {n m : Node} (h : m ∈ n.children) : sizeOf m < sizeOf n := by
  cases n with
  | letIn _ decls _ =>
    simp only [children, List.mem_append, List.mem_singleton] at h
    rcases h with h | rfl
    · have := List.sizeOf_lt_of_mem h
      simp only [letIn.sizeOf_spec]
      omega
    · simp only [letIn.sizeOf_spec]
      omega
  | block _ nodes | call _ _ nodes | print _ nodes | list _ nodes =>
    have := List.sizeOf_lt_of_mem (show m ∈ nodes from h)
    simp only [block.sizeOf_spec, call.sizeOf_spec, print.sizeOf_spec, list.sizeOf_spec]
    omega
  | funDecl | int | float | str | ident => cases h
  | _ =>
    simp only [children, List.mem_cons, List.not_mem_nil, or_false] at h
    grind

namespace Node.Alike

variable {w w' : Renumbering spans} {n n' : Node}

theorem paired : n.Alike w n' → n.Paired w.Tags IsPlain (Alike w) n'
  | mk h => h

theorem mono (hw : w ≤ w') : ∀ {n n' : Node}, n.Alike w n' → n.Alike w' n'
  | n, _, h => mk (h.paired.imp (fun _ _ ht => ⟨hw _ _ ht.1, ht.2⟩) (fun _ hx => hx) fun m hm _ hmm' =>
    have := sizeOf_lt_of_mem_children hm
    mono hw hmm')
termination_by n => sizeOf n

end Node.Alike

/-! ## Tables -/

structure FunctionRecord.Alike (w : Renumbering spans) (r r' : FunctionRecord) :
    Prop extends r.Paired w.Names (Node.Alike w) r' where
  plain : ∀ x ∈ r.params, IsPlain x

def FunctionTable.Alike (w : Renumbering spans) (t t' : FunctionTable) : Prop :=
  Forall₂ (FunctionRecord.Alike w) t.records t'.records

namespace FunctionTable.Alike

variable {w w' : Renumbering spans} {t t' : FunctionTable} {x x' : String}

theorem initial : FunctionTable.initial.Alike w .initial :=
  .cons ⟨⟨rfl, .plain (by unfold IsPlain; decide), rfl, rfl, .nil⟩, by simp⟩ .nil

theorem mono (hw : w ≤ w') (h : t.Alike w t') : t.Alike w' t' :=
  Forall₂.imp (fun _ _ hr => ⟨⟨hr.id_eq, hr.labels.mono hw, hr.params_eq, hr.parent_eq,
    hr.sequence.imp fun _ _ => .mono hw⟩,
    hr.plain⟩) h

theorem size_eq (h : t.Alike w t') : t.size = t'.size := h.length_eq

theorem get? (h : t.Alike w t') (hx : w.Names x x') : Option.Rel (FunctionRecord.Alike w) (t.get? x) (t'.get? x') :=
  forall₂_find? h fun _ _ hr => decide_eq_decide.mpr (hr.labels.eq_iff hx)

theorem declare (h : t.Alike w t') (hx : w.Names x x') {params : List String} (hparams : ∀ y ∈ params, IsPlain y)
    (parent : FunctionId) : (t.declare x params parent).1 = (t'.declare x' params parent).1 ∧
      (t.declare x params parent).2.Alike w (t'.declare x' params parent).2 := by
  unfold FunctionTable.declare
  obtain ⟨hget, hget'⟩ | ⟨r, r', hget, hget', hr⟩ := rel_cases (h.get? hx) <;> rw [hget, hget']
  · exact ⟨h.size_eq, rel_append h (.cons ⟨⟨h.size_eq, hx, rfl, rfl, .nil⟩, hparams⟩ .nil)⟩
  · refine ⟨hr.id_eq, rel_map (fun r r' hr => ?_) h⟩
    have hname : (r.name = x) = (r'.name = x') := propext (hr.labels.eq_iff hx)
    simp only [hname]
    split
    · exact ⟨⟨hr.id_eq, hr.labels, rfl, hr.parent_eq, hr.sequence⟩, hparams⟩
    · exact hr

theorem append (h : t.Alike w t') {n n' : Node} (hn : n.Alike w n') (f : FunctionId) :
    (t.append f n).Alike w (t'.append f n') := by
  refine forall₂_modify h ?_ f
  intro r r' hr
  exact ⟨⟨hr.id_eq, hr.labels, hr.params_eq, hr.parent_eq, rel_append hr.sequence (.cons hn .nil)⟩, hr.plain⟩

theorem clear (h : t.Alike w t') (f : FunctionId) : (t.clear f).Alike w (t'.clear f) := by
  refine forall₂_modify h ?_ f
  intro r r' hr
  exact ⟨⟨hr.id_eq, hr.labels, hr.params_eq, hr.parent_eq, .nil⟩, hr.plain⟩

theorem chainFrom_eq (h : t.Alike w t') : ∀ (limit : Nat) (f : FunctionId), t.chainFrom limit f = t'.chainFrom limit f
  | 0, _ => rfl
  | limit + 1, f => by
    have hparent : (t.byId? f).bind (·.parent) = (t'.byId? f).bind (·.parent) := by
      have hbyId : Option.Rel (FunctionRecord.Alike w) (t.byId? f) (t'.byId? f) := forall₂_getElem? h f
      obtain ⟨hget, hget'⟩ | ⟨r, r', hget, hget', hr⟩ := rel_cases hbyId <;> rw [hget, hget']
      exact hr.parent_eq
    unfold FunctionTable.chainFrom
    rw [hparent]
    cases (t'.byId? f).bind (·.parent) with
    | none => rfl
    | some parent => exact congrArg (f :: ·) (chainFrom_eq h limit parent)

theorem chain_eq (h : t.Alike w t') (f : FunctionId) : t.chain f = t'.chain f := by
  rw [chain, h.size_eq, h.chainFrom_eq, chain]

end FunctionTable.Alike

/-! ## Scopes -/

structure Scope.Alike (w : Renumbering spans) (s s' : Scope) : Prop where
  kind_eq : s.kind = s'.kind
  names : Forall₂ (fun p p' => p.1 = p'.1 ∧ Option.Rel (Node.Alike w) p.2 p'.2) s.names s'.names

namespace Scope.Alike

variable {w w' : Renumbering spans} {s s' : Scope}

theorem mono (hw : w ≤ w') (h : s.Alike w s') : s.Alike w' s' := by
  refine ⟨h.kind_eq, h.names.imp fun p p' hp => ⟨hp.1, ?_⟩⟩
  obtain ⟨hget, hget'⟩ | ⟨n, n', hget, hget', hn⟩ := rel_cases hp.2 <;> rw [hget, hget']
  · exact .none
  · exact .some (hn.mono hw)

theorem get? (h : s.Alike w s') (name : String) :
    Option.Rel (Option.Rel (Node.Alike w)) (s.get? name) (s'.get? name) := by
  have hnames := h.names
  unfold Scope.get?
  revert hnames
  generalize s.names = ps
  generalize s'.names = ps'
  intro hnames
  induction hnames with
  | nil => exact .none
  | @cons p p' _ _ hp _ ih =>
    rw [List.lookup_cons, List.lookup_cons, hp.1]
    cases name == p'.1 with
    | true => exact .some hp.2
    | false => exact ih

theorem insert (h : s.Alike w s') (name : String) {v v' : Option Node} (hv : Option.Rel (Node.Alike w) v v') :
    (s.insert name v).Alike w (s'.insert name v') := ⟨h.kind_eq, .cons ⟨rfl, hv⟩ h.names⟩

theorem forget (h : s.Alike w s') (name : String) : (s.forget name).Alike w (s'.forget name) := by
  unfold Scope.forget
  obtain ⟨hget, hget'⟩ | ⟨v, v', hget, hget', -⟩ := rel_cases (h.get? name) <;> rw [hget, hget']
  · exact h
  · exact h.insert name .none

end Scope.Alike

def ScopeStack.Alike (w : Renumbering spans) (s s' : ScopeStack) : Prop := Forall₂ (Scope.Alike w) s.scopes s'.scopes

namespace ScopeStack.Alike

variable {w w' : Renumbering spans} {s s' : ScopeStack}

theorem mono (hw : w ≤ w') (h : s.Alike w s') : s.Alike w' s' := Forall₂.imp (fun _ _ => .mono hw) h

theorem push (h : s.Alike w s') (kind : ScopeKind) (names : List String) :
    (s.push kind names).Alike w (s'.push kind names) :=
  .cons ⟨rfl, rel_map (fun _ _ hx => ⟨hx, .none⟩) (forall₂_same.mpr fun _ _ => rfl)⟩ h

theorem pop (h : s.Alike w s') : s.pop.Alike w s'.pop := by
  obtain ⟨ss⟩ := s
  obtain ⟨ss'⟩ := s'
  cases h with
  | nil => exact .nil
  | cons _ h => exact h

theorem forget (name : String) {ss ss' : List Scope} (h : Forall₂ (Scope.Alike w) ss ss') :
    Forall₂ (Scope.Alike w) (ScopeStack.forget name ss) (ScopeStack.forget name ss') := by
  induction h with
  | nil => exact .nil
  | @cons s s' _ _ hs hrest ih =>
    unfold ScopeStack.forget
    rw [hs.kind_eq]
    split
    · exact .cons (hs.insert name .none) hrest
    · exact .cons (hs.forget name) ih

theorem declare (h : s.Alike w s') (name : String) {n n' : Node} (hn : n.Alike w n') :
    (s.declare name n).Alike w (s'.declare name n') := by
  obtain ⟨ss⟩ := s
  obtain ⟨ss'⟩ := s'
  cases h with
  | nil => exact .nil
  | @cons inner inner' _ _ hinner houter =>
    unfold ScopeStack.declare
    dsimp only
    rw [hinner.kind_eq]
    cases inner'.kind with
    | letIn => exact .cons (hinner.insert name (.some hn)) (forget name houter)
    | block => exact .cons (hinner.insert name .none) (forget name houter)
    | function => exact .cons (hinner.insert name .none) houter

theorem lookup (h : s.Alike w s') (name : String) : Option.Rel (Node.Alike w) (s.lookup name) (s'.lookup name) := by
  obtain ⟨ss⟩ := s
  obtain ⟨ss'⟩ := s'
  unfold ScopeStack.lookup
  change Forall₂ (Scope.Alike w) ss ss' at h
  dsimp only
  induction h with
  | nil => exact .none
  | @cons inner inner' _ _ hinner _ ih =>
    rw [List.findSome?_cons, List.findSome?_cons]
    obtain ⟨hget, hget'⟩ | ⟨v, v', hget, hget', hv⟩ := rel_cases (hinner.get? name) <;> rw [hget, hget']
    · exact ih
    · exact hv

end ScopeStack.Alike

theorem Loading.knownNumber?_eq {w : Renumbering spans} {s s' : ScopeStack} (h : s.Alike w s') :
    ∀ (limit : Nat) {n n' : Node}, n.Alike w n' → knownNumber? s limit n = knownNumber? s' limit n' := by
  intro limit
  induction limit with
  | zero =>
    intro n n' hn
    cases hn.paired <;> rfl
  | succ limit ih =>
    intro n n' hn
    cases hn.paired
    case ident name _ _ =>
      unfold knownNumber?
      obtain ⟨hget, hget'⟩ | ⟨v, v', hget, hget', hv⟩ := rel_cases (h.lookup name) <;> rw [hget, hget']
      · rfl
      · exact ih hv
    all_goals rfl

/-! ## Frames -/

structure Binding.Alike (w : Renumbering spans) (b b' : Binding) : Prop where
  names : w.Names b.name b'.name
  value : Option.Rel (Node.Alike w) b.value b'.value

def Frame.Alike (w : Renumbering spans) : Frame → Frame → Prop := Forall₂ (Binding.Alike w)

namespace Frame.Alike

variable {w : Renumbering spans} {frame frame' : Frame}

theorem slot?_eq (h : Frame.Alike w frame frame') {x x' : String} (hx : w.Names x x') :
    frame.slot? x = frame'.slot? x' :=
  forall₂_findIdx? h fun _ _ hb => decide_eq_decide.mpr (hb.names.eq_iff hx)

theorem value? (h : Frame.Alike w frame frame') (slot : Nat) :
    Option.Rel (Node.Alike w) (frame.value? slot) (frame'.value? slot) := by
  unfold Frame.value?
  obtain ⟨hget, hget'⟩ | ⟨b, b', hget, hget', hb⟩ := rel_cases (forall₂_getElem? h slot) <;> rw [hget, hget']
  · exact .none
  · exact hb.value

theorem bind (h : Frame.Alike w frame frame') {x x' : String} (hx : w.Names x x') {v v' : Option Node}
    (hv : Option.Rel (Node.Alike w) v v') :
    (frame.bind x v).1 = (frame'.bind x' v').1 ∧ Frame.Alike w (frame.bind x v).2 (frame'.bind x' v').2 := by
  unfold Frame.bind
  rw [h.slot?_eq hx]
  cases frame'.slot? x' with
  | some slot =>
    refine ⟨rfl, forall₂_modify h ?_ slot⟩
    intro b b' hb
    exact ⟨hb.names, hv⟩
  | none => exact ⟨Forall₂.length_eq h, rel_append h (.cons ⟨hx, hv⟩ .nil)⟩

theorem seed {vs vs' : List (Option Node)} (hvs : Forall₂ (Option.Rel (Node.Alike w)) vs vs') {frame frame' : Frame}
    (h : Frame.Alike w frame frame') : Frame.Alike w (frame.seed vs) (frame'.seed vs') := by
  induction hvs generalizing frame frame' with
  | nil => cases h with
    | nil => exact .nil
    | cons hb hrest => exact .cons hb hrest
  | cons hv _ ih => cases h with
    | nil => exact .nil
    | cons hb hrest => exact .cons ⟨hb.names, hv⟩ (ih hrest)

end Frame.Alike

def Frames.Alike (w : Renumbering spans) (fs fs' : Frames) : Prop := Forall₂ (Frame.Alike w) fs.frames fs'.frames

structure Resolved.Alike (w : Renumbering spans) (r r' : Resolved) : Prop where
  frame_eq : r.frame = r'.frame
  slot_eq : r.slot = r'.slot
  value : Option.Rel (Node.Alike w) r.value r'.value

namespace Frames.Alike

variable {w : Renumbering spans} {fs fs' : Frames}

theorem ofTable {t t' : FunctionTable} (h : t.Alike w t') : (Frames.ofTable t).Alike w (.ofTable t') := by
  refine rel_map (fun r r' hr => ?_) h
  rw [← hr.params_eq]
  exact forall₂_map_left_iff.mpr
    (forall₂_map_right_iff.mpr (forall₂_same.mpr fun x hx => ⟨.plain (hr.plain x hx), .none⟩))

theorem get? (h : fs.Alike w fs') (f : FunctionId) : Option.Rel (Frame.Alike w) (fs.get? f) (fs'.get? f) :=
  forall₂_getElem? h f

theorem bind (h : fs.Alike w fs') (f : FunctionId) {x x' : String} (hx : w.Names x x') {v v' : Option Node}
    (hv : Option.Rel (Node.Alike w) v v') :
    (fs.bind f x v).1 = (fs'.bind f x' v').1 ∧ (fs.bind f x v).2.Alike w (fs'.bind f x' v').2 := by
  unfold Frames.bind
  obtain ⟨hget, hget'⟩ | ⟨frame, frame', hget, hget', hframe⟩ := rel_cases (h.get? f) <;> rw [hget, hget']
  · exact ⟨rfl, h⟩
  · obtain ⟨hslot, hframe⟩ := hframe.bind hx hv
    exact ⟨hslot, forall₂_set h hframe f⟩

theorem resolve? (h : fs.Alike w fs') {x x' : String} (hx : w.Names x x') : ∀ chain : List FunctionId,
    Option.Rel (Resolved.Alike w) (fs.resolve? x chain) (fs'.resolve? x' chain)
  | [] => .none
  | f :: outer => by
    unfold Frames.resolve?
    have houter : Option.Rel (Resolved.Alike w) ((fs.resolve? x outer).map fun r => { r with frame := r.frame + 1 })
        ((fs'.resolve? x' outer).map fun r => { r with frame := r.frame + 1 }) := by
      obtain ⟨hget, hget'⟩ | ⟨r, r', hget, hget', hr⟩ := rel_cases (resolve? h hx outer) <;> rw [hget, hget']
      · exact .none
      · exact .some ⟨congrArg (· + 1) hr.frame_eq, hr.slot_eq, hr.value⟩
    obtain ⟨hget, hget'⟩ | ⟨frame, frame', hget, hget', hframe⟩ := rel_cases (h.get? f) <;> rw [hget, hget']
    · exact houter
    · simp only [Option.bind_some, hframe.slot?_eq hx]
      cases frame'.slot? x' with
      | none => exact houter
      | some slot => exact .some ⟨rfl, rfl, hframe.value? slot⟩

theorem seed (h : fs.Alike w fs') (f : FunctionId) {vs vs' : List (Option Node)}
    (hvs : Forall₂ (Option.Rel (Node.Alike w)) vs vs') : (fs.seed f vs).Alike w (fs'.seed f vs') :=
  forall₂_modify h (fun _ _ => .seed hvs) f

end Frames.Alike

end Bies
