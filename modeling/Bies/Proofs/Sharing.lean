import Bies.Proofs.MadeNodes
import Mathlib.Data.List.Forall2

/-!
# Where nodes are shared

The own nodes of an entry are those that lowering it comes upon: the entry and all that stands inside it,
without the bodies of lambdas. Two entries of a loaded table have no own node in common, except that a
declaration may stand inside a later entry of its sequence. If no function has a name like that of a lambda,
then entries of two functions have nodes in common only where the first has an entry with a lambda whose body
holds the entry of the second.
-/

namespace Bies

namespace Node

/-- How `e` may share own nodes with an entry `m` that comes later in the same sequence. -/
def Leads (e m : Node) : Prop := e.ownIds.Disjoint m.ownIds ∨ (e.isDecl = true ∧ e ∈ m.inside false)

def Before (e m : Node) : Prop := e.ids.Disjoint m.ids ∨ (e.isDecl = true ∧ e ∈ m.inside false)

/-- How an entry `e` may share with an entry `m` of a later function. -/
def Across (e m : Node) : Prop := e.ids.Disjoint m.ids ∨ (e.ownIds.Disjoint m.ownIds ∧ e.id ∉ m.ids)

theorem Before.leads {e m : Node} (h : e.Before m) : e.Leads m :=
  h.imp_left fun hd _ he hm => hd ((ownIds_sublist e).subset he) ((ownIds_sublist m).subset hm)

theorem Across.ownIds {e m : Node} (h : e.Across m) : e.ownIds.Disjoint m.ownIds := by
  rcases h with h | h
  · exact fun i he hm => h ((ownIds_sublist e).subset he) ((ownIds_sublist m).subset hm)
  · exact h.1

theorem Across.id_notMem {e m : Node} (h : e.Across m) : e.id ∉ m.ids := by
  rcases h with h | h
  · exact h (id_mem_ids e)
  · exact h.2

end Node

namespace FunctionTable

structure Distinct (t : FunctionTable) : Prop where
  nodup : ∀ {f n}, t.Holds f n → n.ownIds.Nodup
  before : ∀ {f : FunctionId} {r : FunctionRecord}, t.records[f]? = some r → r.sequence.Pairwise Node.Leads
  across : ∀ {f g e m}, t.Holds f e → t.Holds g m → f ≠ g → e.ownIds.Disjoint m.ownIds

structure Separated (t : FunctionTable) : Prop where
  nodup : ∀ {f n}, t.Holds f n → n.ids.Nodup
  before : ∀ {f : FunctionId} {r : FunctionRecord}, t.records[f]? = some r → r.sequence.Pairwise Node.Before
  across : ∀ {f g e m}, t.Holds f e → t.Holds g m → f < g → e.Across m

end FunctionTable

namespace Loading

/-! ## Own nodes -/

def Ledger.Settled (s : Ledger) (n : Node) : Prop :=
  ∀ e f, e = n ∨ e ∈ n.inside false → s.table.Holds f e → e.isDecl = true

def Piece.Calm (s : Ledger) : Piece → Node → Prop
  | .expr _, n | .stmt _, n => (∀ f, ¬ s.table.Holds f n) ∧ s.Settled n
  | .inner _, n => s.Settled n
  | .entry _, _ | .frame .., _ => True

def Piece.inBody : Piece → Bool
  | .entry _ | .frame .. => true
  | _ => false

def Piece.isNew : Piece → Bool
  | .expr _ | .stmt _ => true
  | _ => false

def Ledger.Ordered (s : Ledger) : Prop :=
  ∀ (f : FunctionId) (r : FunctionRecord), s.table.records[f]? = some r → r.sequence.Pairwise Node.Leads

section
variable {held : List Made} {s s' : Ledger} {f g : FunctionId} {n e m : Node} {p : Piece}
  {ps : List Piece} {ns : List Node}
  {id i : NodeId} {stmt : Stmt}

theorem Registered.eq_of_ownIds (h : Registered held s) (he : Made.mk f e ∈ s.made) (hm : Made.mk g m ∈ s.made)
    (hie : i ∈ e.ownIds) (him : i ∈ m.ownIds) : f = g := by
  have hown : ∀ {f n}, Made.mk f n ∈ s.made → i ∈ n.ownIds → ∃ k : Node, Made.mk f k ∈ s.made ∧
    k.id = i := by
    intro f n hn hi
    rcases List.mem_cons.mp hi with rfl | hi
    · exact ⟨n, hn, rfl⟩
    · obtain ⟨k, hk, rfl⟩ := List.mem_map.mp hi
      exact ⟨k, h.mem_of_inside hn hk, rfl⟩
  obtain ⟨k, hk, hid⟩ := hown he hie
  obtain ⟨l, hl, hid'⟩ := hown hm him
  exact congrArg Made.function (h.eq_of_id_eq hk hl (hid.trans hid'.symm))

theorem Piece.Calm.grow (h : p.Calm s n) (hs : Registered held s) (hn : Made.mk f n ∈ s.made) (hg : s.Grows s') :
    p.Calm s' n := by
  have hold : ∀ {e g}, e = n ∨ e ∈ n.inside false → s'.table.Holds g e → s.table.Holds g e := by
    intro e g he hheld
    obtain ⟨_, hmade⟩ := hs.exists_of_inside hn he
    exact (hg.holds hheld).resolve_right (Nat.not_le_of_lt (hs.lt _ hmade))
  cases p with
  | expr | stmt => exact ⟨fun g hg => h.1 g (hold (.inl rfl) hg), fun _ _ he hheld => h.2 _ _ he (hold he hheld)⟩
  | inner => exact fun _ _ he hheld => h _ _ he (hold he hheld)
  | entry | frame => trivial

theorem Piece.Calm.settled (h : p.Calm s n) (hp : p.inBody = false) : s.Settled n := by
  cases p with
  | expr | stmt => exact h.2
  | inner => exact h
  | entry | frame => cases hp

theorem settled_of_calm (h : List.Forall₂ (Piece.Calm s) ps ns) (hps : ∀ p ∈ ps, p.inBody = false) :
    ∀ c ∈ ns, s.Settled c := by
  induction h with
  | nil => simp
  | cons hc _ ih =>
    obtain ⟨hp, hps⟩ := List.forall_mem_cons.mp hps
    exact List.forall_mem_cons.mpr ⟨hc.settled hp, ih hps⟩

theorem Builds.inBody (h : Builds id p ps ns n) : (∃ span statements, p = .frame span statements) ∨
    (p.isNew = true ∧ ∀ q ∈ ps, q.inBody = false) := by
  cases h with
  | frame => exact .inl ⟨_, _, rfl⟩
  | _ => exact .inr ⟨rfl, by simp +contextual [Piece.inBody, or_imp]⟩

theorem Builds.calm (h : Builds id p ps ns n) (hns : List.Forall₂ (Piece.Calm s) ps ns)
    (hn : ∀ f, ¬ s.table.Holds f n) : p.Calm s n := by
  rcases h.inBody with ⟨span, statements, rfl⟩ | ⟨hp, hps⟩
  · trivial
  · have hsettled : s.Settled n := by
      rintro e f (rfl | he) hheld
      · exact absurd hheld (hn f)
      · obtain ⟨c, hc, hec⟩ := Node.mem_inside.mp he
        exact settled_of_calm hns hps c (h.children.subset hc.1) e f hec hheld
    cases p with
    | expr | stmt => exact ⟨hn, hsettled⟩
    | inner | entry | frame => cases hp

theorem Ledger.Ordered.append (h : s.Ordered) (hs : Registered (held ++ [⟨f, n⟩]) s)
    (hn : (Piece.stmt stmt).Calm s n) : (s.append f n).Ordered := by
  intro g r' hr'
  obtain ⟨r, hr, rfl⟩ := records_append hr'
  split
  next hfg =>
    subst hfg
    refine List.pairwise_append.mpr ⟨h f r hr, List.pairwise_singleton _ _, fun e he m hm => ?_⟩
    obtain rfl := List.mem_singleton.mp hm
    have hheld : s.table.Holds f e := ⟨r, hr, he⟩
    by_cases hdecl : e.isDecl = true ∧ e ∈ m.inside false
    · exact .inr hdecl
    · refine .inl fun i hie him => ?_
      have hm := hs.held _ (List.mem_append_right _ List.mem_cons_self)
      rcases hs.comparable_of_ids (hs.entries hheld) hm hie him with rfl | hem | hme
      · exact hn.1 f hheld
      · exact hdecl ⟨hn.2 e f (.inr hem) hheld, hem⟩
      · exact hs.notMem_inside (hs.entries hheld) hme
  next => exact h g r hr

theorem Ledger.Ordered.restrict {t : FunctionTable} (h : s.Ordered)
    (ht : ∀ {g : FunctionId} {r : FunctionRecord}, t.records[g]? = some r → r.sequence = [] ∨
      ∃ r₀, s.table.records[g]? = some r₀ ∧ r.sequence = r₀.sequence) :
    ({ s with table := t } : Ledger).Ordered := by
  intro g r hr
  rcases ht hr with hnil | ⟨r₀, hr₀, hs⟩
  · exact hnil ▸ .nil
  · exact hs ▸ h g r₀ hr₀

theorem Ledger.Ordered.declare (h : s.Ordered) (name : String) (params : List String) (f : FunctionId) :
    (s.declare name params f).Ordered := by
  refine h.restrict fun hr' => ?_
  rcases records_declare hr' with ⟨r, hr, rfl | rfl⟩ | ⟨-, rfl⟩
  · exact .inr ⟨_, hr, rfl⟩
  · exact .inr ⟨r, hr, rfl⟩
  · exact .inl rfl

theorem Ledger.Ordered.clear (h : s.Ordered) (f : FunctionId) : (s.clear f).Ordered := by
  refine h.restrict fun hr' => ?_
  obtain ⟨r, hr, rfl | rfl⟩ := records_clear hr'
  · exact .inr ⟨_, hr, rfl⟩
  · exact .inl rfl

theorem Registered.calm (h : Registered held s) (hn : ∀ m ∈ s.made, m.node.id ≠ n.id) (hin : n.inside false = []) :
    (∀ f, ¬ s.table.Holds f n) ∧ s.Settled n := by
  have hnew : ∀ f, ¬ s.table.Holds f n := fun f hf => hn _ (h.entries hf) rfl
  refine ⟨hnew, ?_⟩
  rintro e f (rfl | he) hheld
  · exact absurd hheld (hnew f)
  · rw [hin] at he
    cases he

end

theorem Loaded.ordered {f : FunctionId} {ps : List Piece} {s s' : Ledger} {ns : List Node} (h : Loaded f ps s ns s') :
    ∀ {held : List Made}, Registered held s → s.Ordered → s'.Ordered ∧ List.Forall₂ (Piece.Calm s') ps ns := by
  induction h with
  | nil => exact fun _ ho => ⟨ho, .nil⟩
  | cons hn hns ih ihs =>
    intro held hs ho
    obtain ⟨ho₁, hcalm⟩ := ih hs ho
    have hs₁ := hn.registered hs
    obtain ⟨ho₂, hcalms⟩ := ihs hs₁ ho₁
    have hcalm := (List.forall₂_cons.mp hcalm).1
    exact ⟨ho₂, .cons (hcalm.grow hs₁ (hs₁.held _ (List.mem_append_right _ List.mem_cons_self)) hns.grows.1)
      hcalms⟩
  | build hb hns ih =>
    intro held hs ho
    obtain ⟨ho₁, hcalm⟩ := ih hs ho
    have hs₁ := hns.registered hs
    refine ⟨ho₁, .cons (hb.calm hcalm fun g hheld => ?_) .nil⟩
    exact Nat.lt_irrefl _ (hb.id_eq ▸ hs₁.lt _ (hs₁.entries hheld))
  | expr _ ih =>
    intro held hs ho
    obtain ⟨ho₁, hcalm⟩ := ih hs ho
    exact ⟨ho₁, .cons (List.forall₂_cons.mp hcalm).1 .nil⟩
  | inner _ _ ih =>
    intro held hs ho
    obtain ⟨ho₁, hcalm⟩ := ih hs ho
    exact ⟨ho₁, .cons (List.forall₂_cons.mp hcalm).1.2 .nil⟩
  | @declared f stmt s s₁ n hd hn ih =>
    intro held hs ho
    obtain ⟨ho₁, hcalm⟩ := ih hs ho
    have hcalm := (List.forall₂_cons.mp hcalm).1
    refine ⟨ho₁.append (hn.registered hs) hcalm, .cons (fun e g he hheld => ?_) .nil⟩
    rcases FunctionTable.holds_append hheld with hheld | ⟨-, rfl⟩
    · exact hcalm.2 e g he hheld
    · exact hd
  | entry hn ih =>
    intro held hs ho
    obtain ⟨ho₁, hcalm⟩ := ih hs ho
    exact ⟨ho₁.append (hn.registered hs) (List.forall₂_cons.mp hcalm).1, .cons trivial .nil⟩
  | lambda _ hb ih =>
    intro held hs ho
    have hs₁ := hb.registered (hs.number.declare _ _ _)
    obtain ⟨-, hne⟩ := hs.free (((Ledger.Grows.refl _).declare _ _ _).trans hb.grows.1)
    exact ⟨(ih (hs.number.declare _ _ _) (ho.declare _ _ _)).1, .cons (hs₁.calm hne rfl) .nil⟩
  | @lambdaDecl f g _ _ name params _ _ _ _ _ _ hb ih =>
    intro held hs ho
    have hs' := (hs.number.declare name params f).clear g
    obtain ⟨-, hne⟩ := hs.free ((((Ledger.Grows.refl _).declare _ _ _).clear _).trans hb.grows.1)
    exact ⟨(ih hs' ((ho.declare _ _ _).clear _)).1, .cons ((hb.registered hs').calm hne rfl) .nil⟩
  | funDecl _ _ hb ih =>
    intro held hs ho
    have hs₁ := hb.registered (hs.declare _ _ _)
    obtain ⟨-, hne⟩ := hs₁.free (.refl _)
    exact ⟨(ih (hs.declare _ _ _) (ho.declare _ _ _)).1, .cons (hs₁.calm hne rfl) .nil⟩

/-! ## Programs with plain names -/

end Loading

mutual

def Expr.PlainNames : Expr → Prop
  | .arithmetic _ left _ right | .comparison _ left _ right => left.PlainNames ∧ right.PlainNames
  | .call _ _ args => Expr.AllPlainNames args
  | .list _ items => Expr.AllPlainNames items
  | .access _ _ index => index.PlainNames
  | .lambda _ _ body => body.PlainNames
  | .int .. | .float .. | .str .. | .ident .. | .malformed .. => True

def Expr.AllPlainNames : List Expr → Prop
  | [] => True
  | e :: rest => e.PlainNames ∧ Expr.AllPlainNames rest

def Body.PlainNames : Body → Prop
  | .block _ statements => Stmt.AllPlainNames statements
  | .value _ value => value.PlainNames

def Stmt.PlainNames : Stmt → Prop
  | .decl _ _ _ value | .ret _ value => value.PlainNames
  | .lambdaDecl _ name _ _ body | .funDecl _ name _ body => '#' ∉ name.toList ∧ body.PlainNames
  | .letIn _ decls _ body => Stmt.AllPlainNames decls ∧ Stmt.AllPlainNames body
  | .ifThen _ test _ body => test.PlainNames ∧ Stmt.AllPlainNames body
  | .ifElse _ test _ body _ other => test.PlainNames ∧ Stmt.AllPlainNames body ∧ Stmt.AllPlainNames other
  | .ifElseIf _ test _ body link => test.PlainNames ∧ Stmt.AllPlainNames body ∧ link.PlainNames
  | .block _ statements => Stmt.AllPlainNames statements
  | .print _ args => Expr.AllPlainNames args
  | .expr value => value.PlainNames
  | .malformed .. => True

def Stmt.AllPlainNames : List Stmt → Prop
  | [] => True
  | s :: rest => s.PlainNames ∧ Stmt.AllPlainNames rest

end

theorem Expr.allPlainNames_iff {es : List Expr} : Expr.AllPlainNames es ↔ ∀ e ∈ es, e.PlainNames := by
  induction es with
  | nil => simp [Expr.AllPlainNames]
  | cons e rest ih => simp [Expr.AllPlainNames, ih]

theorem Stmt.allPlainNames_iff {statements : List Stmt} :
    Stmt.AllPlainNames statements ↔ ∀ s ∈ statements, s.PlainNames := by
  induction statements with
  | nil => simp [Stmt.AllPlainNames]
  | cons s rest ih => simp [Stmt.AllPlainNames, ih]

namespace Loading

def Piece.Plain : Piece → Prop
  | .expr e => e.PlainNames
  | .stmt s | .inner s | .entry s => s.PlainNames
  | .frame _ statements => Stmt.AllPlainNames statements

theorem plain_piece {body : Body} : body.piece.Plain ↔ body.PlainNames := by
  cases body <;> exact Iff.rfl

theorem Builds.plain {id : NodeId} {p : Piece} {ps : List Piece} {ns : List Node} {n : Node} (h : Builds id p ps ns n) :
    p.Plain ↔ ∀ q ∈ ps, q.Plain := by
  cases h <;> simp [Piece.Plain, Expr.PlainNames, Stmt.PlainNames, Expr.allPlainNames_iff,
    Stmt.allPlainNames_iff, or_imp,
    forall_and]

structure Ledger.Rising (s : Ledger) : Prop where
  named : ∀ name ∈ s.table.names, Named s.nextId name
  scope : ∀ m ∈ s.made, m.node.isLambda = true → m.function < m.node.scope m.function

namespace Ledger.Rising

variable {s : Ledger} {f : FunctionId} {n : Node} {name : String}

theorem number (h : s.Rising) : s.number.Rising := ⟨fun name hn => (h.named name hn).mono (Nat.le_succ _), h.scope⟩

theorem make (h : s.Rising) (hn : n.isLambda = true → f < n.scope f) : (s.make f n).Rising :=
  ⟨h.named, List.forall_mem_cons.mpr ⟨hn, h.scope⟩⟩

theorem append (h : s.Rising) : (s.append f n).Rising :=
  ⟨(FunctionTable.names_append : (s.table.append f n).names = _) ▸ h.named, h.scope⟩

theorem clear (h : s.Rising) : (s.clear f).Rising :=
  ⟨(FunctionTable.names_clear : (s.table.clear f).names = _) ▸ h.named, h.scope⟩

theorem declare (h : s.Rising) (hname : Named s.nextId name) (params : List String) (f : FunctionId) :
    (s.declare name params f).Rising := by
  refine ⟨fun y hy => ?_, h.scope⟩
  rcases FunctionTable.mem_names_declare hy with hy | rfl
  · exact h.named y hy
  · exact hname

theorem declare_fst (h : s.Rising) (params : List String) (f : FunctionId) :
    (s.table.declare s!"lambda#{s.nextId}" params f).1 = s.table.size := by
  rw [FunctionTable.declare_new fun hmem => (h.named _ hmem).ne_lambdaName rfl]

end Ledger.Rising

theorem rising_initial : Ledger.Rising {} where
  named name hname := by
    rw [List.mem_singleton.mp hname]
    exact .inl (by decide)
  scope := by simp

theorem Loaded.rising {f : FunctionId} {ps : List Piece} {s s' : Ledger} {ns : List Node} (h : Loaded f ps s ns s') :
    (∀ p ∈ ps, p.Plain) → f < s.table.size → s.table.Numbered → s.Rising → s'.Rising := by
  induction h with
  | nil => exact fun _ _ _ hr => hr
  | cons hn _ ih ihs =>
    intro hps hf ht hr
    obtain ⟨hp, hps⟩ := List.forall_mem_cons.mp hps
    have hs := hn.grows.1
    exact ihs hps (Nat.lt_of_lt_of_le hf hs.size) (hs.numbered ht) (ih (List.forall_mem_singleton.mpr hp) hf ht hr)
  | build hb _ ih =>
    intro hp hf ht hr
    have hps := hb.plain.mp (List.forall_mem_singleton.mp hp)
    refine (ih hps hf ht hr).number.make fun hl => ?_
    rw [Node.isLambda_of_not_isFunction hb.isFunction] at hl
    cases hl
  | expr _ ih | inner _ _ ih =>
    intro hp
    have hp := List.forall_mem_singleton.mp hp
    exact ih (List.forall_mem_singleton.mpr hp)
  | declared _ _ ih | entry _ ih =>
    intro hp hf ht hr
    have hp := List.forall_mem_singleton.mp hp
    exact (ih (List.forall_mem_singleton.mpr hp) hf ht hr).append
  | @lambda f g _ params _ s _ _ hg _ ih =>
    intro hp hf ht hr
    have hp := List.forall_mem_singleton.mp hp
    have hnew : g = s.table.size := hg.trans (hr.declare_fst params f)
    refine (ih (List.forall_mem_singleton.mpr (plain_piece.mpr hp)) (hg ▸ declare_lt ht.id_eq) ht.declare
      (hr.number.declare (.inr ⟨_, Nat.lt_succ_self _, rfl⟩) _ _)).make fun _ => ?_
    exact Nat.lt_of_lt_of_eq hf hnew.symm
  | @lambdaDecl f g _ _ name params _ s _ _ _ hg _ ih =>
    intro hp hf ht hr
    obtain ⟨hname, hp⟩ := List.forall_mem_singleton.mp hp
    have hlt : g < (s.table.declare name params f).2.size := hg ▸ declare_lt ht.id_eq
    exact (ih (List.forall_mem_singleton.mpr (plain_piece.mpr hp)) ((size_clear _).symm ▸ hlt) ht.declare.clear
      (hr.number.declare (.inl hname) _ _).clear).make (fun hl => Bool.noConfusion hl)
  | funDecl _ hg _ ih =>
    intro hp hf ht hr
    obtain ⟨hname, hp⟩ := List.forall_mem_singleton.mp hp
    exact (ih (List.forall_mem_singleton.mpr (plain_piece.mpr hp)) (hg ▸ declare_lt ht.id_eq) ht.declare
      (hr.declare (.inl hname) _ _)).number.make (fun hl => Bool.noConfusion hl)

/-! ## Sharing between functions -/

namespace Registered

variable {held : List Made} {s : Ledger} {f g : FunctionId} {n k : Node}

/-- What stands inside a node belongs to the same function, unless it stands in the body of a lambda: then it
belongs to a later one. -/
theorem inside_or_lt (h : Registered held s) (hr : s.Rising) (hn : Made.mk f n ∈ s.made) (hk : k ∈ n.inside true)
    (hg : Made.mk g k ∈ s.made) : k ∈ n.inside false ∨ f < g := by
  have hstep : ∀ {c p : Node} {i j : FunctionId}, c ∈ p.children → Made.mk i p ∈ s.made →
    Made.mk j c ∈ s.made →
      j = p.scope i := fun hc hp hj => congrArg Made.function (h.eq_of_id_eq hj (h.inner _ hp _ hc) rfl)
  induction Node.mem_inside_iff.mp hk using Relation.TransGen.head_induction_on generalizing g with
  | @single c hc =>
    cases hl : n.isLambda with
    | true => exact .inr (hstep hc.1 hn hg ▸ hr.scope _ hn hl)
    | false => exact .inl (Node.mem_inside.mpr ⟨c, ⟨hc.1, by simp [hl]⟩, .inl rfl⟩)
  | @head c p hc hp ih =>
    have hp := Node.mem_inside_iff.mpr hp
    obtain ⟨i, hi⟩ := h.exists_of_inside hn (.inr hp)
    have hle : p ∈ n.inside false ∧ i = f ∨ f < i := (ih hp hi).imp_left fun hin =>
      ⟨hin, congrArg Made.function (h.eq_of_id_eq hi (h.mem_of_inside hn hin) rfl)⟩
    have hg := hstep hc.1 hi hg
    cases hl : p.isLambda with
    | true =>
      have hlt : i < g := hg ▸ hr.scope _ hi hl
      rcases hle with ⟨-, rfl⟩ | hfi
      · exact .inr hlt
      · exact .inr (Nat.lt_trans hfi hlt)
    | false =>
      rw [Node.scope_eq hl] at hg
      refine hle.imp (fun hin => ?_) fun hfi => hg ▸ hfi
      exact Node.inside_trans hin.1 (Node.mem_inside.mpr ⟨c, ⟨hc.1, by simp [hl]⟩, .inl rfl⟩)

theorem distinct (h : Registered held s) (ho : s.Ordered) : s.table.Distinct where
  nodup hn := (h.ids_nodup _ (h.entries hn)).sublist (Node.ownIds_sublist _)
  before := ho _ _
  across he hm hne _ hie him := hne (h.eq_of_ownIds (h.entries he) (h.entries hm) hie him)

theorem separated (h : Registered held s) (ho : s.Ordered) (hr : s.Rising) : s.table.Separated where
  nodup hn := h.ids_nodup _ (h.entries hn)
  before {f r} hf := by
    refine (ho f r hf).imp_of_mem fun {e m} he hm hleads => ?_
    have he := h.entries ⟨r, hf, he⟩
    have hm := h.entries ⟨r, hf, hm⟩
    -- of two entries in one function, one stands inside the other without the bodies of lambdas
    have hown : ∀ {e m}, Made.mk f e ∈ s.made → Made.mk f m ∈ s.made → e ∈ m.inside true →
      e.id ∈ m.ownIds := by
      intro e m he hm hem
      have hin := (h.inside_or_lt hr hm hem he).resolve_right (Nat.lt_irrefl f)
      exact List.mem_cons_of_mem _ (List.mem_map_of_mem hin)
    refine hleads.imp_left fun hd i hie him => ?_
    rcases h.comparable_of_ids he hm hie him with rfl | hem | hme
    · exact hd (Node.id_mem_ownIds e) (Node.id_mem_ownIds e)
    · exact hd (Node.id_mem_ownIds e) (hown he hm hem)
    · exact hd (hown hm he hme) (Node.id_mem_ownIds m)
  across {f g e m} he hm hlt := by
    have hne : ∀ i ∈ e.ownIds, i ∉ m.ownIds := fun i hie him =>
      Nat.ne_of_lt hlt (h.eq_of_ownIds (h.entries he) (h.entries hm) hie him)
    refine .inr ⟨hne, fun hid => ?_⟩
    obtain ⟨i, k, hk, hkm, hid⟩ := h.exists_of_mem_ids (h.entries hm) hid
    obtain rfl : k = e := congrArg Made.node (h.eq_of_id_eq hk (h.entries he) hid)
    rcases hkm with rfl | hkm
    · exact hne _ (Node.id_mem_ownIds k) (Node.id_mem_ownIds k)
    · have hin := (h.inside_or_lt hr (h.entries hm) hkm (h.entries he)).resolve_right (Nat.lt_asymm hlt)
      exact hne _ (Node.id_mem_ownIds k) (List.mem_cons_of_mem _ (List.mem_map_of_mem hin))

end Registered

theorem Loaded.started {program : Program} {ns : List Node} {s : Ledger} (h : Loaded 0 (program.map .entry) {} ns s) :
    Registered (ns.map (Made.mk 0)) s ∧ s.Ordered ∧ (Stmt.AllPlainNames program → s.Rising) := by
  refine ⟨h.registered registered_initial, ?_, fun hplain => ?_⟩
  · refine (h.ordered registered_initial fun f r hr => ?_).1
    obtain rfl := List.mem_singleton.mp (List.mem_of_getElem? hr)
    exact .nil
  · refine h.rising (fun p hp => ?_) Nat.one_pos FunctionTable.numbered_initial rising_initial
    obtain ⟨stmt, hstmt, rfl⟩ := List.mem_map.mp hp
    exact Stmt.allPlainNames_iff.mp hplain stmt hstmt

/-- The table of a program without `#` in the names of its functions shares nodes in the two ways only. -/
theorem separated_of_load {program : Program} {table : FunctionTable} {limit : Nat} {s' : State}
    (hnames : Stmt.AllPlainNames program) (h : (load program).run { names := limit } = .ok table s') :
    table.Separated := by
  obtain ⟨nodes, _, hload, rfl⟩ := exists_of_load h
  obtain ⟨s, hloaded, ht⟩ := loaded_of_loadSequence rfl rfl hload
  obtain ⟨hr, ho, hrising⟩ := hloaded.started
  rw [← ht]
  exact hr.separated ho (hrising hnames)

end Loading

theorem FunctionTable.separated_of_ofProgram {program : Program} {table : FunctionTable}
    (hnames : Stmt.AllPlainNames program) (h : (FunctionTable.ofProgram program).result = .ok table) :
    table.Separated := by
  obtain ⟨s', hrun⟩ := Outcome.ofRun_eq_ok h
  exact Loading.separated_of_load hnames hrun

theorem FunctionTable.distinct_of_ofProgram {program : Program} {table : FunctionTable}
    (h : (FunctionTable.ofProgram program).result = .ok table) : table.Distinct := by
  obtain ⟨ns, s, hloaded, rfl⟩ := loaded_of_ofProgram h
  obtain ⟨hr, ho, -⟩ := hloaded.started
  exact hr.distinct ho

end Bies
