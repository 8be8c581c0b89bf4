import Bies.Proofs.Code
import Bies.Proofs.Node
import Mathlib.Data.List.Nodup

/-!
# Plain lowering

Lowering without a record of what has been lowered and without a look at what comes later: of each
sequence only the nodes that stand inside no later one are lowered, in order, by recursion on their
structure.
-/

namespace Bies
namespace Lowering

namespace Plain

mutual

def value (c : Context) : Node → Lowering Code
  | .ident tag name => return [← loadName c name tag.span]
  | .binary tag left op right => do
    let i ← arithmeticInstruction c tag left op right
    let rightCode ← value c right
    let leftCode ← value c left
    return rightCode ++ leftCode ++ [i]
  | .comparison tag left op right => do
    match Instruction.comparison? op with
    | none => throw (.unknownOperator op tag.span)
    | some i =>
      let rightCode ← value c right
      let leftCode ← value c left
      return rightCode ++ leftCode ++ [i]
  | .call tag name args => do
    let code ← values c args
    return code ++ (← finishCall c tag name args)
  | .access tag name index => do
    let code ← value c index
    return code ++ [← loadName c name tag.span, .ltk]
  | .lambda _ _ _ f => return [.ldf f]
  | n =>
    if n.isLiteral then
      match literal n with
      | .ok x => return [.ldv x]
      | .error e => throw e
    else throw (.malformed .statementAsValue n.span)

def values (c : Context) : List Node → Lowering Code
  | [] => return []
  | n :: rest => do
    let code ← value c n
    return code ++ (← values c rest)

end

mutual

def stmt (c : Context) : Node → Lowering Code
  | .decl _ _ name v => do
    let code ← value c v
    let slot ← bind c name (some v)
    return code ++ [.bst 0 slot]
  | .letIn _ decls body => do
    let code ← stmts c decls
    return code ++ (← stmt c body)
  | .block _ statements => stmts c statements
  | .ifThen _ test body => do
    let test ← value c test
    let body ← stmt c body
    finishChain (.branch test body .done)
  | .ifElse _ test body other => do
    let test ← value c test
    let body ← stmt c body
    let other ← stmt c other
    finishChain (.branch test body (.otherwise other))
  | .ifElseIf _ test body link => do
    let test ← value c test
    let body ← stmt c body
    let rest ← chain c link
    finishChain (.branch test body rest)
  | .print _ args => do
    let code ← values c args
    return code ++ [.prn]
  | .ret _ v => do
    let code ← value c v
    return if code.endsInRet then code else code ++ [.ret]
  | .call tag name args => value c (.call tag name args)
  | .binary tag left op right => value c (.binary tag left op right)
  | .comparison tag left op right => value c (.comparison tag left op right)
  | .funDecl .. => return []
  | n => skip c n

def stmts (c : Context) : List Node → Lowering Code
  | [] => return []
  | n :: rest => do
    let code ← stmt c n
    return code ++ (← stmts c rest)

def chain (c : Context) : Node → Lowering Chain
  | .ifThen _ test body => do
    let test ← value c test
    let body ← stmt c body
    return .branch test body .done
  | .ifElse _ test body other => do
    let test ← value c test
    let body ← stmt c body
    let other ← stmt c other
    return .branch test body (.otherwise other)
  | .ifElseIf _ test body link => do
    let test ← value c test
    let body ← stmt c body
    let rest ← chain c link
    return .branch test body rest
  | n => throw (.internal (.notConditional n.describe))

end

/-- The nodes of a sequence that do not stand inside a later one. -/
def roots : List Node → List Node
  | [] => []
  | n :: rest => if rest.any (·.contains n.id) then roots rest else n :: roots rest

def function (table : FunctionTable) (options : Options) (entries : List Node) (r : FunctionRecord) :
    Lowering FunctionCode := do
  note (.loweringFunction r.id r.name)
  let code ← stmts ⟨table, options, r.id, table.chain r.id⟩ entries
  let code := if r.id = 0 then code ++ [.hlt] else code
  return ⟨r.id, r.name, r.arity, r.parent.getD 0, code⟩

/-- The functions in order. Which entries of a sequence are lowered is told by `choose`, from the nodes of the
functions that follow and the sequence. -/
def functions (choose : (later sequence : List Node) → List Node) (table : FunctionTable) (options : Options) :
    List FunctionRecord → Lowering (List FunctionCode)
  | [] => return []
  | r :: rest => do
    let f ← function table options (choose (rest.flatMap (·.sequence)) r.sequence) r
    return f :: (← functions choose table options rest)

def lower (table : FunctionTable) (options : Options) : Lowering Assembly := do
  let functions ← functions (fun _ => roots) table options table.records
  return ⟨functions, (← get).skipped⟩

end Plain

end Lowering

def Assembly.plain (table : FunctionTable) (options : Options) : Outcome Assembly :=
  .ofRun Lowering.State.events (Lowering.Plain.lower table options) { frames := .ofTable table }

namespace Lowering

/-! ## Computations that differ in their visits only -/

abbrev Visits := Std.TreeMap NodeId Visit

structure State.Same (s t : State) : Prop where
  frames : s.frames = t.frames
  skipped : s.skipped = t.skipped
  events : s.events = t.events

def Agree {α : Type} (ids : List NodeId) (v : Visits) :
    EStateM.Result CompileError State α → EStateM.Result CompileError State α → Prop
  | .ok a s, .ok b t => a = b ∧ s.Same t ∧ ∀ i ∉ ids, s.visits[i]? = v[i]?
  | .error e s, .error e' t => e = e' ∧ s.Same t
  | _, _ => False

/-- If the visits fulfil `pre`, then `x` does the same as `y` and visits nothing but `ids`. -/
def Tracks {α : Type} (pre : Visits → Prop) (ids : List NodeId) (x y : Lowering α) : Prop :=
  ∀ s t, s.Same t → pre s.visits → Agree ids s.visits (x.run s) (y.run t)

def Unlowered (ids : List NodeId) (v : Visits) : Prop := ∀ i ∈ ids, v[i]? ≠ some .emitted

abbrev Anything : Visits → Prop := fun _ => True

namespace Tracks

variable {α β : Type} {pre post : Visits → Prop} {a b : List NodeId} {x y : Lowering α} {f g : α → Lowering β}

theorem mono (h : Tracks pre a x y) (hpre : ∀ v, post v → pre v) (hids : ∀ i ∈ a, i ∈ b) :
    Tracks post b x y := by
  intro s t hst hv
  have := h s t hst (hpre _ hv)
  cases hx : x.run s <;> cases hy : y.run t <;> rw [hx, hy] at this
  · exact ⟨this.1, this.2.1, fun i hi => this.2.2 i fun hia => hi (hids i hia)⟩
  · exact this
  · exact this
  · exact this

theorem bind (hx : Tracks pre a x y) (hf : ∀ r, Tracks post b (f r) (g r))
    (hpost : ∀ v w : Visits, pre v → (∀ i ∉ a, w[i]? = v[i]?) → post w) :
    Tracks pre (a ++ b) (x >>= f) (y >>= g) := by
  intro s t hst hv
  have h := hx s t hst hv
  rw [EStateM.run_bind, EStateM.run_bind]
  cases hxs : x.run s <;> cases hyt : y.run t <;> rw [hxs, hyt] at h
  next r s₁ r' t₁ =>
    obtain ⟨rfl, hst₁, hvis⟩ := h
    have h' := hf r s₁ t₁ hst₁ (hpost _ _ hv hvis)
    show Agree _ _ ((f r).run s₁) ((g r).run t₁)
    cases hfs : (f r).run s₁ <;> cases hgt : (g r).run t₁ <;> rw [hfs, hgt] at h'
    · refine ⟨h'.1, h'.2.1, fun i hi => ?_⟩
      rw [List.mem_append, not_or] at hi
      rw [h'.2.2 i hi.2, hvis i hi.1]
    · exact h'
    · exact h'
    · exact h'
  · exact absurd h id
  · exact absurd h id
  · exact h

theorem bind_any (hx : Tracks pre a x y) (hf : ∀ r, Tracks Anything b (f r) (g r)) :
    Tracks pre (a ++ b) (x >>= f) (y >>= g) :=
  hx.bind hf fun _ _ _ _ => trivial

theorem ret (r : α) : Tracks pre [] (pure r) (pure r) := fun _ _ hst _ => ⟨rfl, hst, fun _ _ => rfl⟩

theorem fail (e : CompileError) : Tracks pre [] (throw e : Lowering α) (throw e) := fun _ _ hst _ => ⟨rfl, hst⟩

theorem seq (hx : Tracks Anything [] x y) (hf : ∀ r, Tracks Anything b (f r) (g r)) :
    Tracks Anything b (x >>= f) (y >>= g) :=
  hx.bind_any hf

theorem read {k l : State → Lowering β} (h : ∀ s t, s.Same t → Tracks pre a (k s) (l t)) :
    Tracks pre a (get >>= k) (get >>= l) :=
  fun s t hst hv => h s t hst s t hst hv

theorem change {k : State → State} (hk : ∀ s t, s.Same t → (k s).Same (k t))
    (hv : ∀ s, (k s).visits = s.visits) : Tracks pre [] (modify k) (modify k) := by
  intro s t hst _
  refine ⟨rfl, hk s t hst, fun i _ => ?_⟩
  show (k s).visits[i]? = _
  rw [hv]

theorem changeGet {k : State → α × State} (hr : ∀ s t, s.Same t → (k s).1 = (k t).1)
    (hk : ∀ s t, s.Same t → (k s).2.Same (k t).2) (hv : ∀ s, (k s).2.visits = s.visits) :
    Tracks pre [] (modifyGet k) (modifyGet k) := by
  intro s t hst _
  refine ⟨hr s t hst, hk s t hst, fun i _ => ?_⟩
  show (k s).2.visits[i]? = _
  rw [hv]

end Tracks

/-! ## Steps that do not look at visits -/

section
variable {pre : Visits → Prop} (c : Context)

theorem tracks_note (e : Event) : Tracks pre [] (note e) (note e) :=
  .change (fun _ _ h => ⟨h.frames, h.skipped, by simp [h.events]⟩) fun _ => rfl

theorem tracks_bind (name : String) (value : Option Node) :
    Tracks pre [] (bind c name value) (bind c name value) :=
  .changeGet (fun _ _ h => by simp [h.frames])
    (fun _ _ h => ⟨by simp [h.frames], h.skipped, h.events⟩) fun _ => rfl

theorem tracks_loadName (name : String) (span : Span) :
    Tracks Anything [] (loadName c name span) (loadName c name span) := by
  unfold loadName
  refine .read fun s t hst => ?_
  rw [hst.frames]
  split
  · exact .ret _
  · split
    · exact .ret _
    · split
      · exact .seq (tracks_bind c name none) fun slot => .seq (tracks_note _) fun _ => .ret _
      · exact .fail _

theorem tracks_arithmeticInstruction (tag : Tag) (left : Node) (op : String) (right : Node) :
    Tracks Anything [] (arithmeticInstruction c tag left op right)
      (arithmeticInstruction c tag left op right) := by
  unfold arithmeticInstruction
  split
  · exact .fail _
  · refine .read fun s t hst => ?_
    rw [hst.frames]
    exact .ret _

theorem tracks_finishCall (tag : Tag) (name : String) (args : List Node) :
    Tracks Anything [] (finishCall c tag name args) (finishCall c tag name args) := by
  unfold finishCall
  refine .read fun s t hst => ?_
  rw [hst.frames]
  split
  · split
    · exact .ret _
    · exact .seq (tracks_bind c _ _) fun slot => .ret _
  · refine .seq (tracks_loadName c name tag.span) fun load => ?_
    split
    · exact .seq (.change (fun _ _ h => ⟨by simp [h.frames], h.skipped, h.events⟩) fun _ => rfl) fun _ => .ret _
    · exact .ret _

theorem tracks_skip (n : Node) : Tracks Anything [] (skip c n) (skip c n) := by
  unfold skip
  exact .seq (tracks_note _) fun _ =>
    .seq (.change (fun _ _ h => ⟨h.frames, by simp [h.skipped], h.events⟩) fun _ => rfl) fun _ => .ret _

theorem tracks_finishChain (chain : Chain) : Tracks pre [] (finishChain chain) (finishChain chain) := by
  unfold finishChain
  split
  · exact .ret _
  · exact .fail _

end

section
variable {i : NodeId} {α : Type} {pre : Visits → Prop} {ids : List NodeId} {v : Visit} {x : Unit → Lowering α}
   {y : Lowering α}

theorem getElem?_insert_ne (u : Visits) (v : Visit) {j : NodeId} (h : j ≠ i) : (u.insert i v)[j]? = u[j]? := by
  rw [Std.TreeMap.getElem?_insert, if_neg]
  simpa [Nat.compare_eq_eq] using Ne.symm h

theorem tracks_visit {post : Visits → Prop}
    (h : Tracks post ids (x ()) y)
    (hpost : ∀ u : Visits, pre u → post (u.insert i v)) : Tracks pre (i :: ids) (visit i v >>= x) y := by
  intro s t hst hpre
  have hx := h { s with visits := s.visits.insert i v } t ⟨hst.frames, hst.skipped, hst.events⟩ (hpost _ hpre)
  show Agree _ _ ((x ()).run { s with visits := s.visits.insert i v }) (y.run t)
  cases hxs : (x ()).run { s with visits := s.visits.insert i v } <;> cases hyt : y.run t <;>
    rw [hxs, hyt] at hx
  · refine ⟨hx.1, hx.2.1, fun j hj => ?_⟩
    rw [List.mem_cons, not_or] at hj
    rw [hx.2.2 j hj.2, getElem?_insert_ne _ _ hj.1]
  · exact hx
  · exact hx
  · exact hx

theorem tracks_visit_any
    (h : Tracks Anything ids (x ()) y) :
    Tracks pre (i :: ids) (visit i v >>= x) y :=
  tracks_visit h fun _ _ => trivial

end

/-! ## Values -/

mutual

theorem lowerValue_tracks (c : Context) : ∀ n, Tracks Anything n.ownIds (lowerValue c n) (Plain.value c n)
  | .ident tag name => by
    unfold lowerValue Plain.value
    exact tracks_visit_any (.seq (tracks_loadName c name tag.span) fun _ => .ret _)
  | .binary tag left op right => by
    unfold lowerValue Plain.value
    rw [Node.ownIds_eq rfl]
    refine (tracks_visit_any (.seq (tracks_arithmeticInstruction c tag left op right) fun i =>
      (lowerValue_tracks c right).bind_any fun _ => (lowerValue_tracks c left).bind_any fun _ =>
        .ret _)).mono (fun _ h => h) ?_
    simp +contextual [or_imp, Node.children, Node.id, Node.tag]
  | .comparison tag left op right => by
    unfold lowerValue Plain.value
    rw [Node.ownIds_eq rfl]
    refine (tracks_visit_any ?_).mono (fun _ h => h)
      (a := tag.id :: (right.ownIds ++ (left.ownIds ++ []))) ?_
    · cases Instruction.comparison? op with
      | none => exact (Tracks.fail _).mono (fun _ h => h) (by simp)
      | some i =>
        exact (lowerValue_tracks c right).bind_any fun _ => (lowerValue_tracks c left).bind_any fun _ => .ret _
    · simp +contextual [or_imp, Node.children, Node.id, Node.tag]
  | .call tag name args => by
    unfold lowerValue Plain.value
    rw [Node.ownIds_eq rfl]
    refine (tracks_visit_any ((lowerValues_tracks c args).bind_any fun _ =>
      .seq (tracks_finishCall c tag name args) fun _ => .ret _)).mono (fun _ h => h) ?_
    simp +contextual [Node.children, Node.id, Node.tag]
  | .access tag name index => by
    unfold lowerValue Plain.value
    rw [Node.ownIds_eq rfl]
    refine (tracks_visit_any ((lowerValue_tracks c index).bind_any fun _ =>
      .seq (tracks_loadName c name tag.span) fun _ => .ret _)).mono (fun _ h => h) ?_
    simp +contextual [Node.children, Node.id, Node.tag]
  | .lambda tag params body f => by
    unfold lowerValue Plain.value
    exact tracks_visit_any (.ret _)
  | .decl .. | .letIn .. | .ifThen .. | .ifElse .. | .ifElseIf .. | .block .. | .funDecl .. | .print ..
  | .ret .. | .list .. | .int .. | .float .. | .str .. => by
    unfold lowerValue Plain.value
    refine (tracks_visit_any ?_).mono (fun _ h => h) (a := [Node.id _]) (by simp [Node.ownIds])
    split
    · generalize literal _ = x
      cases x with
      | ok x => exact .ret _
      | error e => exact .fail _
    · exact .fail _

theorem lowerValues_tracks (c : Context) : ∀ ns : List Node,
    Tracks Anything (ns.flatMap Node.ownIds) (lowerValues c ns) (Plain.values c ns)
  | [] => by
    unfold lowerValues Plain.values
    exact .ret _
  | n :: rest => by
    unfold lowerValues Plain.values
    refine ((lowerValue_tracks c n).bind_any fun _ => (lowerValues_tracks c rest).bind_any fun _ =>
      .ret _).mono (fun _ h => h) ?_
    simp +contextual

end

/-! ## Statements -/

def Lowers {α : Type} (ids : List NodeId) (x y : Lowering α) : Prop := Tracks (Unlowered ids) ids x y

namespace Lowers

variable {α β : Type} {a b : List NodeId} {i : NodeId} {x y : Lowering α} {f g : α → Lowering β}

theorem of_value (h : Tracks Anything a x y) : Lowers a x y := h.mono (fun _ _ => trivial) fun _ hi => hi

theorem mono (h : Lowers a x y) (hab : ∀ i ∈ a, i ∈ b) : Lowers b x y :=
  Tracks.mono h (fun _ hv i hi => hv i (hab i hi)) hab

theorem bind (hx : Lowers a x y) (hf : ∀ r, Lowers b (f r) (g r)) (hab : a.Disjoint b) :
    Lowers (a ++ b) (x >>= f) (y >>= g) := by
  refine Tracks.bind (Tracks.mono hx (fun v hv i hi => hv i (List.mem_append_left b hi)) fun _ hi => hi) hf ?_
  intro v w hv hw i hi
  rw [hw i fun ha => hab ha hi]
  exact hv i (List.mem_append_right a hi)

theorem andThen (hx : Lowers a x y) (hf : ∀ r, Tracks Anything [] (f r) (g r)) :
    Lowers a (x >>= f) (y >>= g) :=
  (hx.bind (fun r => of_value (hf r)) (List.disjoint_nil_right a)).mono (by simp)

theorem visited (hx : Lowers a x y) (hi : i ∉ a) : Lowers (i :: a) (visit i .emitted >>= fun _ => x) y := by
  refine tracks_visit hx fun v hv j hj => ?_
  rw [getElem?_insert_ne _ _ (ne_of_mem_of_not_mem hj hi)]
  exact hv j (List.mem_cons_of_mem i hj)

theorem firstTime {x y : Lowering Code} (hx : Lowers a x y) (hi : i ∉ a) : Lowers (i :: a) (once i x) y := by
  intro s t hst hv
  rw [once_of_fresh i (hv i List.mem_cons_self)]
  exact hx.visited hi s t hst hv

/-- The node of a value that stands as a statement is visited twice. -/
theorem firstTime_value {x y : Lowering Code} (hx : Tracks Anything a x y) (hi : i ∈ a) : Lowers a (once i x) y := by
  intro s t hst hv
  rw [once_of_fresh i (hv i hi)]
  exact ((tracks_visit_any hx).mono (fun _ h => h) (by simp [hi])) s t hst hv

end Lowers

mutual

theorem lowerStmt_lowers (c : Context) : ∀ n : Node, n.ownIds.Nodup →
    Lowers n.ownIds (lowerStmt c n) (Plain.stmt c n)
  | .decl tag constant name value, h => by
    unfold lowerStmt Plain.stmt
    simp only [Node.ownIds_decl, List.nodup_cons] at h ⊢
    exact (Lowers.andThen (.of_value (lowerValue_tracks c value)) fun _ =>
      .seq (tracks_bind c _ _) fun _ => .ret _).firstTime h.1
  | .letIn tag decls body, h => by
    unfold lowerStmt Plain.stmt
    simp only [Node.ownIds_letIn, List.nodup_cons, List.nodup_append'] at h ⊢
    exact (Lowers.bind (lowerStmts_lowers c decls h.2.1) (fun _ => (lowerStmt_lowers c body h.2.2.1).andThen
      fun _ => .ret _) h.2.2.2).firstTime h.1
  | .block tag statements, h => by
    unfold lowerStmt Plain.stmt
    simp only [Node.ownIds_block, List.nodup_cons] at h ⊢
    exact (lowerStmts_lowers c statements h.2).firstTime h.1
  | .ifThen tag test body, h => by
    unfold lowerStmt Plain.stmt
    simp only [Node.ownIds_ifThen, List.nodup_cons, List.nodup_append'] at h ⊢
    exact (Lowers.bind (.of_value (lowerValue_tracks c test)) (fun _ => (lowerStmt_lowers c body h.2.2.1).andThen
      fun _ => tracks_finishChain _) h.2.2.2).firstTime h.1
  | .ifElse tag test body other, h => by
    unfold lowerStmt Plain.stmt
    simp only [Node.ownIds_ifElse, List.nodup_cons, List.nodup_append'] at h ⊢
    exact (Lowers.bind (.of_value (lowerValue_tracks c test)) (fun _ =>
      .bind (lowerStmt_lowers c body h.2.2.1.1) (fun _ =>
        (lowerStmt_lowers c other h.2.2.1.2.1).andThen fun _ => tracks_finishChain _) h.2.2.1.2.2)
      h.2.2.2).firstTime h.1
  | .ifElseIf tag test body link, h => by
    unfold lowerStmt Plain.stmt
    simp only [Node.ownIds_ifElseIf, List.nodup_cons, List.nodup_append'] at h ⊢
    exact (Lowers.bind (.of_value (lowerValue_tracks c test)) (fun _ =>
      .bind (lowerStmt_lowers c body h.2.2.1.1) (fun _ =>
        (lowerLink_lowers c link h.2.2.1.2.1).andThen fun _ => tracks_finishChain _) h.2.2.1.2.2)
      h.2.2.2).firstTime h.1
  | .print tag args, h => by
    unfold lowerStmt Plain.stmt
    simp only [Node.ownIds_print, List.nodup_cons] at h ⊢
    exact (Lowers.andThen (.of_value (lowerValues_tracks c args)) fun _ => .ret _).firstTime h.1
  | .ret tag value, h => by
    unfold lowerStmt Plain.stmt
    simp only [Node.ownIds_ret, List.nodup_cons] at h ⊢
    exact (Lowers.andThen (.of_value (lowerValue_tracks c value)) fun _ => .ret _).firstTime h.1
  | .call .., _ | .binary .., _ | .comparison .., _ => by
    unfold lowerStmt Plain.stmt
    exact .firstTime_value (lowerValue_tracks c _) (Node.id_mem_ownIds _)
  | .funDecl .., _ => by
    unfold lowerStmt Plain.stmt
    exact .firstTime (.of_value (.ret _)) List.not_mem_nil
  | .lambda .., _ | .access .., _ | .list .., _ | .int .., _ | .float .., _ | .str .., _ | .ident .., _ => by
    unfold lowerStmt Plain.stmt
    exact .mono (.firstTime (.of_value (tracks_skip c _)) List.not_mem_nil) (by simp [Node.ownIds])

theorem lowerStmts_lowers (c : Context) : ∀ ns : List Node, (ns.flatMap Node.ownIds).Nodup →
    Lowers (ns.flatMap Node.ownIds) (lowerStmts c ns) (Plain.stmts c ns)
  | [], _ => by
    unfold lowerStmts Plain.stmts
    exact .of_value (.ret _)
  | n :: rest, h => by
    unfold lowerStmts Plain.stmts
    simp only [List.flatMap_cons, List.nodup_append'] at h ⊢
    exact .bind (lowerStmt_lowers c n h.1) (fun _ => (lowerStmts_lowers c rest h.2.1).andThen fun _ => .ret _) h.2.2

theorem lowerLink_lowers (c : Context) : ∀ n : Node, n.ownIds.Nodup →
    Lowers n.ownIds (lowerLink c n) (Plain.chain c n)
  | .ifThen tag test body, h => by
    unfold lowerLink Plain.chain
    simp only [Node.ownIds_ifThen, List.nodup_cons, List.nodup_append'] at h ⊢
    exact (Lowers.bind (.of_value (lowerValue_tracks c test)) (fun _ => (lowerStmt_lowers c body h.2.2.1).andThen
      fun _ => .ret _) h.2.2.2).visited h.1
  | .ifElse tag test body other, h => by
    unfold lowerLink Plain.chain
    simp only [Node.ownIds_ifElse, List.nodup_cons, List.nodup_append'] at h ⊢
    exact (Lowers.bind (.of_value (lowerValue_tracks c test)) (fun _ =>
      .bind (lowerStmt_lowers c body h.2.2.1.1) (fun _ =>
        (lowerStmt_lowers c other h.2.2.1.2.1).andThen fun _ => .ret _) h.2.2.1.2.2) h.2.2.2).visited h.1
  | .ifElseIf tag test body link, h => by
    unfold lowerLink Plain.chain
    simp only [Node.ownIds_ifElseIf, List.nodup_cons, List.nodup_append'] at h ⊢
    exact (Lowers.bind (.of_value (lowerValue_tracks c test)) (fun _ =>
      .bind (lowerStmt_lowers c body h.2.2.1.1) (fun _ =>
        (lowerLink_lowers c link h.2.2.1.2.1).andThen fun _ => .ret _) h.2.2.1.2.2) h.2.2.2).visited h.1
  | .decl .., _ | .letIn .., _ | .binary .., _ | .comparison .., _ | .block .., _ | .funDecl .., _ | .lambda .., _
  | .call .., _ | .print .., _ | .ret .., _ | .access .., _ | .list .., _ | .int .., _ | .float .., _ | .str .., _
  | .ident .., _ => by
    unfold lowerLink Plain.chain
    exact .of_value ((Tracks.fail _).mono (fun _ h => h) (by simp))

end

end Lowering
end Bies
