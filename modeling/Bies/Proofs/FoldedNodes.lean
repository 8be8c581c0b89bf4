import Bies.Proofs.Lambdas
import Bies.Proofs.Unfolding

/-!
# Nodes with and without numbers put for names

A program of lambdas is loaded in two ways: one follows names to find a number, the other does not. The nodes
have the same numbers, and differ only where one has a number and the other an expression that has this value,
if its variables were stored last by the nodes that their numbers are taken from. That a variable of the
function itself was, is the work of the scopes: a declaration makes them forget its name.
-/

namespace Bies

open Loading Lowering

/-! ## Numbers of nodes -/

theorem Node.ids_around {n : Node} {start : NodeId} (hle : start ≤ n.id)
    (h : ∀ m ∈ n.children, ∀ i ∈ m.ids, start ≤ i ∧ i < n.id) :
    ∀ i ∈ n.ids, start ≤ i ∧ i < n.id + 1 := by
  intro i hi
  rw [Node.ids_eq] at hi
  rcases List.mem_cons.mp hi with rfl | hi
  · exact ⟨hle, Nat.lt_succ_self _⟩
  · obtain ⟨m, hm, hi⟩ := List.mem_flatMap.mp hi
    exact ⟨(h m hm i hi).1, Nat.lt_succ_of_lt (h m hm i hi).2⟩

namespace Lowering.Plain

theorem roots_nested {n : Node} {rest : List Node} : ∀ {nested : List Node}, nested ⊆ n.inside true →
    roots (nested ++ n :: rest) = roots (n :: rest)
  | [], _ => rfl
  | m :: nested, h => by
    have hinside : n.contains m.id = true :=
      Node.contains_iff.mpr (List.mem_map_of_mem (h List.mem_cons_self))
    have hany : (nested ++ n :: rest).any (·.contains m.id) = true :=
      List.any_eq_true.mpr ⟨n, List.mem_append_right _ List.mem_cons_self, hinside⟩
    rw [List.cons_append, roots, if_pos hany]
    exact roots_nested fun k hk => h (List.mem_cons_of_mem _ hk)

theorem roots_entries :
    ∀ {nodes : List Node}, nodes.Pairwise (fun n m => n.id ∉ m.ids) → roots (Node.entries nodes) = nodes
  | [], _ => rfl
  | n :: rest, h => by
    obtain ⟨hn, hrest⟩ := List.pairwise_cons.mp h
    have hentries : Node.entries (n :: rest) = n.nested ++ n :: Node.entries rest := by simp [Node.entries]
    have hany : ¬ (Node.entries rest).any (·.contains n.id) = true := by
      intro hany
      obtain ⟨e, he, hcontains⟩ := List.any_eq_true.mp hany
      obtain ⟨m, hm, he⟩ := List.mem_flatMap.mp he
      refine hn m hm ?_
      rcases List.mem_append.mp he with he | he
      · exact Node.ids_subset_of_mem_inside (m.nested_subset he) (Node.mem_ids_of_contains hcontains)
      · obtain rfl := List.mem_singleton.mp he
        exact Node.mem_ids_of_contains hcontains
    rw [hentries, roots_nested n.nested_subset, roots, if_neg hany, roots_entries hrest]

end Lowering.Plain

section
variable {limit : Nat} {scopes : ScopeStack}

theorem Expr.id_place (next : NodeId) : ∀ e : Expr, (e.place limit scopes next).id + 1 = next + e.size
  | .arithmetic _ left _ right => by
    rw [Expr.place, Expr.size]
    split
    next k _ => cases k <;> simp [Node.ofNumber, Node.id, Node.tag, Nat.add_assoc]
    next => simp [Node.id, Node.tag, Nat.add_assoc]
  | .call .. => by simp [Expr.place, Expr.size, Node.id, Node.tag, Nat.add_assoc]
  | .int .. | .float .. | .str .. | .ident .. | .comparison .. | .access .. | .list .. | .lambda .. | .malformed .. =>
    rfl

mutual

theorem Expr.ids_place {functions : List String} : ∀ {e : Expr} {next : NodeId}, e.isBasic functions = true →
    ∀ i ∈ (e.place limit scopes next).ids, next ≤ i ∧ i < next + e.size
  | .int .., next, _ | .float .., next, _ | .ident .., next, _ => by
    intro i hi
    obtain rfl := List.mem_singleton.mp hi
    exact ⟨Nat.le_refl _, Nat.lt_succ_self _⟩
  | .arithmetic span left op right, next, h => by
    simp only [Expr.isBasic, Bool.and_eq_true] at h
    intro i hi
    rw [Expr.place] at hi
    rw [Expr.size]
    split at hi
    next k _ =>
      rw [Node.ids_ofNumber] at hi
      obtain rfl := List.mem_singleton.mp hi
      dsimp only
      lia
    next =>
      rw [Node.ids_eq] at hi
      simp only [Node.children, List.flatMap_cons, List.flatMap_nil, List.append_nil, List.mem_cons,
        List.mem_append] at hi
      rcases hi with rfl | hi | hi
      · simp only [Node.id, Node.tag]
        lia
      · have := Expr.ids_place h.1.2 i hi
        lia
      · have := Expr.ids_place h.2 i hi
        lia
  | .call _ _ args, next, h => by
    simp only [Expr.isBasic, Bool.and_eq_true] at h
    intro i hi
    rw [Expr.place, Node.ids_eq] at hi
    rw [Expr.size]
    rcases List.mem_cons.mp hi with rfl | hi
    · simp only [Node.id, Node.tag]
      lia
    · have := Expr.ids_placeAll h.2 i hi
      lia

theorem Expr.ids_placeAll {functions : List String} :
    ∀ {es : List Expr} {next : NodeId}, Expr.areBasic functions es = true →
    ∀ i ∈ (Expr.placeAll limit scopes es next).flatMap Node.ids, next ≤ i ∧ i < next + Expr.sizes es
  | [], _, _ => nofun
  | e :: rest, next, h => by
    simp only [Expr.areBasic, Bool.and_eq_true] at h
    intro i hi
    rw [Expr.placeAll, List.flatMap_cons] at hi
    rw [Expr.sizes]
    rcases List.mem_append.mp hi with hi | hi
    · have := Expr.ids_place h.1 i hi
      lia
    · have := Expr.ids_placeAll h.2 i hi
      lia

end

structure Placed.Numbered (p : Placed) (start : NodeId) : Prop where
  le : start ≤ p.spot.next
  ids : ∀ n ∈ p.nodes, ∀ i ∈ n.ids, start ≤ i ∧ i < p.spot.next
  apart : p.nodes.Pairwise fun n m => n.id ∉ m.ids
  values : ∀ v ∈ p.values, start ≤ v.1 ∧ v.1 < p.spot.next
  distinct : (p.values.map (·.1)).Nodup
  roots : ∀ l ∈ p.functions, Plain.roots l.record.sequence = l.statements

theorem Placed.Numbered.append {p q : Placed} {start : NodeId} (hp : p.Numbered start) (hq : q.Numbered p.spot.next) :
    (p.append q).Numbered start where
  le := Nat.le_trans hp.le hq.le
  ids n hn i hi := by
    have hp' := hp.le
    have hq' := hq.le
    rcases List.mem_append.mp hn with hn | hn
    · have := hp.ids n hn i hi
      exact ⟨this.1, Nat.lt_of_lt_of_le this.2 hq'⟩
    · have := hq.ids n hn i hi
      exact ⟨Nat.le_trans hp' this.1, this.2⟩
  apart := by
    refine List.pairwise_append.mpr ⟨hp.apart, hq.apart, fun n hn m hm hmem => ?_⟩
    have hbefore := hp.ids n hn _ n.id_mem_ids
    have hbehind := hq.ids m hm _ hmem
    lia
  values v hv := by
    have hp' := hp.le
    have hq' := hq.le
    rcases List.mem_append.mp hv with hv | hv
    · have := hp.values v hv
      exact ⟨this.1, Nat.lt_of_lt_of_le this.2 hq'⟩
    · have := hq.values v hv
      exact ⟨Nat.le_trans hp' this.1, this.2⟩
  distinct := by
    rw [Placed.append, List.map_append]
    refine List.nodup_append.mpr ⟨hp.distinct, hq.distinct, fun i hi j hj hij => ?_⟩
    obtain ⟨v, hv, rfl⟩ := List.mem_map.mp hi
    obtain ⟨w, hw, rfl⟩ := List.mem_map.mp hj
    have hbefore := hp.values v hv
    have hbehind := hq.values w hw
    lia
  roots l hl := (List.mem_append.mp hl).elim (hp.roots l) (hq.roots l)

theorem Placed.numbered_single {p : Placed} {start : NodeId} {n : Node} (hn : p.nodes = [n])
    (hids : ∀ i ∈ n.ids, start ≤ i ∧ i < p.spot.next) (hfunctions : p.functions = [])
    (hvalues : p.values = [] ∨ ∃ v, p.values = [v] ∧ start ≤ v.1 ∧ v.1 < p.spot.next) : p.Numbered start where
  le := by
    have := hids _ n.id_mem_ids
    exact Nat.le_of_lt (Nat.lt_of_le_of_lt this.1 this.2)
  ids m hm := by
    rw [hn] at hm
    exact List.mem_singleton.mp hm ▸ hids
  apart := by
    rw [hn]
    exact List.pairwise_singleton _ _
  values v hv := by
    rcases hvalues with h | ⟨w, h, hw⟩
    · rw [h] at hv
      cases hv
    · rw [h] at hv
      exact List.mem_singleton.mp hv ▸ hw
  distinct := by rcases hvalues with h | ⟨w, h, _⟩ <;> simp [h]
  roots := by
    rw [hfunctions]
    nofun

mutual

theorem Stmt.place_numbered {functions : List String} (f : FunctionId) (outer : List String) :
    ∀ {stmt : Stmt} (c : Spot), stmt.isBasic functions = true → (stmt.place limit f outer c).Numbered c.next
  | .decl span constant name value, c, h => by
    simp only [Stmt.isBasic, Bool.and_eq_true] at h
    have hids := fun i => @Expr.ids_place limit c.scopes functions value c.next h.1 i
    refine Placed.numbered_single rfl (Node.ids_around (Nat.le_add_right _ _) fun m hm => ?_) rfl
      (Or.inr ⟨_, rfl, ?_⟩)
    · obtain rfl := List.mem_singleton.mp hm
      exact hids
    · have hvalue := hids _ (Node.id_mem_ids _)
      exact ⟨hvalue.1, Nat.lt_succ_of_lt hvalue.2⟩
  | .lambdaDecl span name lambdaSpan params body, c, h => by
    have hbody := Body.place_numbered c.size (outer ++ c.own.map (·.1))
      ⟨c.next + 1, c.size + 1, c.scopes.pushFunction params, params.map (·, none)⟩ h
    have hle : c.next + 1 ≤ (body.place limit c.size (outer ++ c.own.map (·.1))
      ⟨c.next + 1, c.size + 1, c.scopes.pushFunction params, params.map (·, none)⟩).spot.next := hbody.le
    refine ⟨Nat.le_of_succ_le hle, fun n hn i hi => ?_, List.pairwise_singleton _ _, fun v hv => ?_,
      hbody.distinct, fun l hl => ?_⟩
    · obtain rfl := List.mem_singleton.mp hn
      obtain rfl := List.mem_singleton.mp hi
      exact ⟨Nat.le_refl _, hle⟩
    · exact ⟨Nat.le_of_succ_le (hbody.values v hv).1, (hbody.values v hv).2⟩
    · rcases List.mem_cons.mp hl with rfl | hl
      · exact Plain.roots_entries hbody.apart
      · exact hbody.roots l hl
  | .letIn span decls bodySpan body, c, h => by
    simp only [Stmt.isBasic, Bool.and_eq_true] at h
    have hparts := (Stmt.placeAll_numbered f outer { c with scopes := c.scopes.pushLetIn } h.1).append
      (Stmt.placeAll_numbered f outer _ h.2)
    have hblock := Node.ids_around (n := .block ⟨_, bodySpan⟩ _) hparts.le fun m hm => hparts.ids m
      (List.mem_append_right _ hm)
    have hids := Node.ids_around (n := .letIn ⟨_, span⟩ _ (.block ⟨_, bodySpan⟩ _))
      (Nat.le_succ_of_le hparts.le) fun m hm i hi => by
      rcases List.mem_append.mp hm with hm | hm
      · have := hparts.ids m (List.mem_append_left _ hm) i hi
        exact ⟨this.1, Nat.lt_succ_of_lt this.2⟩
      · exact hblock i (List.mem_singleton.mp hm ▸ hi)
    refine ⟨Nat.le_add_right_of_le hparts.le, fun n hn => ?_, List.pairwise_singleton _ _,
      fun v hv => ?_, hparts.distinct,
      hparts.roots⟩
    · obtain rfl := List.mem_singleton.mp hn
      exact hids
    · exact ⟨(hparts.values v hv).1, Nat.lt_add_right _ (hparts.values v hv).2⟩
  | .print span args, c, h => by
    have hids := fun i => @Expr.ids_placeAll limit c.scopes functions args c.next h i
    refine Placed.numbered_single rfl (Node.ids_around (Nat.le_add_right _ _) fun m hm i hi => ?_) rfl (Or.inl rfl)
    exact hids i (List.mem_flatMap.mpr ⟨m, hm, hi⟩)
  | .ret span value, c, h => by
    refine Placed.numbered_single rfl (Node.ids_around (Nat.le_add_right _ _) fun m hm => ?_) rfl (Or.inl rfl)
    obtain rfl := List.mem_singleton.mp hm
    exact Expr.ids_place h
  | .expr value, c, h => by
    simp only [Stmt.isBasic, Bool.and_eq_true] at h
    exact Placed.numbered_single rfl (Expr.ids_place h.2) rfl (Or.inl rfl)

theorem Body.place_numbered {functions : List String} (f : FunctionId) (outer : List String) :
    ∀ {body : Body} (c : Spot), body.isBasic functions = true → (body.place limit f outer c).Numbered c.next
  | .block span statements, c, h => by
    have hstatements := Stmt.placeAll_numbered f outer c h
    exact { hstatements with
      le := Nat.le_succ_of_le hstatements.le
      ids := fun n hn i hi => ⟨(hstatements.ids n hn i hi).1, Nat.lt_succ_of_lt (hstatements.ids n hn i hi).2⟩
      values := fun v hv => ⟨(hstatements.values v hv).1, Nat.lt_succ_of_lt (hstatements.values v hv).2⟩ }
  | .value span value, c, h => by
    refine Placed.numbered_single rfl (Node.ids_around (Nat.le_add_right _ _) fun m hm => ?_) rfl (Or.inl rfl)
    obtain rfl := List.mem_singleton.mp hm
    exact Expr.ids_place h

theorem Stmt.placeAll_numbered {functions : List String} (f : FunctionId) (outer : List String) :
    ∀ {statements : List Stmt} (c : Spot), Stmt.areBasic functions statements = true →
      (Stmt.placeAll limit f outer statements c).Numbered c.next
  | [], c, _ => ⟨Nat.le_refl _, nofun, .nil, nofun, .nil, nofun⟩
  | stmt :: rest, c, h => by
    simp only [Stmt.areBasic, Bool.and_eq_true] at h
    exact (Stmt.place_numbered f outer c h.1).append (Stmt.placeAll_numbered f outer _ h.2)

end

end

/-! ## Scopes -/

namespace ScopeStack

def SameShape : List Scope → List Scope → Prop
  | [], [] => True
  | s :: rest, t :: rest' => s.kind = t.kind ∧ if s.kind = .function then rest = rest' else SameShape rest rest'
  | _, _ => False

theorem SameShape.refl : ∀ scopes : List Scope, SameShape scopes scopes
  | [] => trivial
  | s :: rest => by
    refine ⟨rfl, ?_⟩
    split
    · rfl
    · exact SameShape.refl rest

theorem SameShape.trans : ∀ {a b c : List Scope}, SameShape a b → SameShape b c → SameShape a c
  | [], [], [], _, _ => trivial
  | _ :: _, _ :: _, _ :: _, ⟨hkind, h⟩, ⟨hkind', h'⟩ => by
    refine ⟨hkind.trans hkind', ?_⟩
    rw [← hkind] at h'
    split at h
    next hfunction =>
      rw [if_pos hfunction] at h' ⊢
      exact h.trans h'
    next hfunction =>
      rw [if_neg hfunction] at h' ⊢
      exact h.trans h'

theorem SameShape.pop {s : Scope} {rest : List Scope} {stack : ScopeStack} (h : SameShape (s :: rest) stack.scopes)
    (hkind : s.kind ≠ .function) : SameShape rest stack.pop.scopes := by
  obtain ⟨scopes⟩ := stack
  match scopes, h with
  | _ :: _, ⟨_, h⟩ =>
    rw [if_neg hkind] at h
    exact h

theorem SameShape.pop_function {s : Scope} {rest : List Scope} {stack : ScopeStack}
    (h : SameShape (s :: rest) stack.scopes) (hkind : s.kind = .function) : stack.pop = ⟨rest⟩ := by
  obtain ⟨scopes⟩ := stack
  match scopes, h with
  | _ :: _, ⟨_, h⟩ =>
    rw [if_pos hkind] at h
    rw [h]
    rfl

theorem sameShape_forget (name : String) : ∀ scopes : List Scope, SameShape scopes (forget name scopes)
  | [] => trivial
  | s :: rest => by
    unfold forget
    split
    next hfunction => exact ⟨rfl, by rw [if_pos hfunction]⟩
    next hfunction =>
      refine ⟨?_, by rw [if_neg hfunction]; exact sameShape_forget name rest⟩
      unfold Scope.forget
      split <;> rfl

theorem sameShape_declare (s : ScopeStack) (name : String) (value : Node) :
    SameShape s.scopes (s.declare name value).scopes := by
  obtain ⟨scopes⟩ := s
  unfold declare
  match scopes with
  | [] => trivial
  | inner :: outer =>
    dsimp only
    split
    next hkind => exact ⟨rfl, by rw [if_neg (by rw [hkind]; nofun)]; exact sameShape_forget name outer⟩
    next hkind => exact ⟨rfl, by rw [if_neg (by rw [hkind]; nofun)]; exact sameShape_forget name outer⟩
    next hkind => exact ⟨rfl, by rw [if_pos hkind]⟩

end ScopeStack

mutual

theorem Stmt.sameShape_place {limit : Nat} {f : FunctionId} {outer : List String} : ∀ (stmt : Stmt) (c : Spot),
    ScopeStack.SameShape c.scopes.scopes (stmt.place limit f outer c).spot.scopes.scopes
  | .decl .., c => ScopeStack.sameShape_declare ..
  | .lambdaDecl _ name _ params body, c => by
    have hbody : (body.place limit c.size (outer ++ c.own.map (·.1))
      ⟨c.next + 1, c.size + 1, c.scopes.pushFunction params, params.map (·, none)⟩).spot.scopes = c.scopes :=
      body.scopes_place _ rfl
    rw [Stmt.place]
    dsimp only
    rw [hbody]
    exact ScopeStack.sameShape_declare ..
  | .letIn _ decls _ body, c => by
    exact ((Stmt.sameShape_placeAll decls { c with scopes := c.scopes.pushLetIn }).trans
      (Stmt.sameShape_placeAll body _)).pop nofun
  | .print .., c | .ret .., c | .expr .., c | .funDecl .., c | .ifThen .., c | .ifElse .., c | .ifElseIf .., c
  | .block .., c | .malformed .., c => ScopeStack.SameShape.refl _

theorem Body.scopes_place {limit : Nat} {f : FunctionId} {outer params : List String} {scopes : ScopeStack} :
    ∀ (body : Body) (c : Spot), c.scopes = scopes.pushFunction params →
    (body.place limit f outer c).spot.scopes = scopes
  | .block _ statements, c, h => by
    have hstatements : ScopeStack.SameShape c.scopes.scopes
      (Stmt.placeAll limit f outer statements c).spot.scopes.scopes := Stmt.sameShape_placeAll statements c
    rw [h] at hstatements
    exact hstatements.pop_function rfl
  | .value .., c, h => by
    rw [Body.place]
    dsimp only
    rw [h]
    rfl

theorem Stmt.sameShape_placeAll {limit : Nat} {f : FunctionId} {outer : List String} :
    ∀ (statements : List Stmt) (c : Spot),
      ScopeStack.SameShape c.scopes.scopes (Stmt.placeAll limit f outer statements c).spot.scopes.scopes
  | [], _ => ScopeStack.SameShape.refl _
  | stmt :: rest, c => (stmt.sameShape_place c).trans (Stmt.sameShape_placeAll rest _)

end

def Node.isIdent : Node → Bool
  | .ident .. => true
  | _ => false

namespace Unfolding

section
variable (S : Sources)

/-- A name that the scope knows a number of has the number of the node that is its source, and `P` holds of name and
node. No name is known to stand for another. -/
structure Tells (P : String → NodeId → Prop) (s : Scope) : Prop where
  known : ∀ {name v}, s.get? name = some (some v) →
    v.isIdent = false ∧ ∀ k, v.number? = some k → S.number v.id = some k ∧ P name v.id

/-- What is known in the scopes of the function, whose variables are `own`, is what was stored last. What is known
beyond them is about the variables `outer` of the functions around. -/
def Fits (own : Locals) (outer : List String) : List Scope → Prop
  | [] => True
  | s :: rest =>
    if s.kind = .function then
      (∀ name, (s.get? name).join = none ∧ (own.lookup name ≠ none → s.get? name ≠ none)) ∧
        ∀ t ∈ rest, Tells S (fun name _ => name ∈ outer) t
    else Tells S (fun name i => own.lookup name = some (some i)) s ∧ Fits own outer rest

variable {S} {own own' : Locals} {outer : List String} {name : String}

section
variable {P Q : String → NodeId → Prop} {s : Scope}

theorem Tells.insert_none (h : Tells S P s)
    (hPQ : ∀ other i, other ≠ name → P other i → Q other i) : Tells S Q (s.insert name none) := by
  refine ⟨fun {other v} hget => ?_⟩
  rw [Scope.get?_insert] at hget
  by_cases hother : other = name
  · rw [if_pos hother] at hget
    cases hget
  · rw [if_neg hother] at hget
    exact (h.known hget).imp_right fun h k hk => (h k hk).imp_right (hPQ _ _ hother)

theorem Tells.insert (h : Tells S P s) (hPQ : ∀ other i, other ≠ name → P other i → Q other i) {v : Node}
    (hv : v.isIdent = false) (hk : ∀ k, v.number? = some k → S.number v.id = some k ∧ Q name v.id) :
    Tells S Q (s.insert name (some v)) := by
  refine ⟨fun {other w} hget => ?_⟩
  rw [Scope.get?_insert] at hget
  by_cases hother : other = name
  · rw [if_pos hother] at hget
    obtain rfl := Option.some.inj (Option.some.inj hget)
    exact ⟨hv, hother ▸ hk⟩
  · rw [if_neg hother] at hget
    exact (h.known hget).imp_right fun h k hk => (h k hk).imp_right (hPQ _ _ hother)

theorem Tells.forget (h : Tells S P s)
    (hPQ : ∀ other i, other ≠ name → P other i → Q other i) : Tells S Q (s.forget name) := by
  unfold Scope.forget
  split
  next => exact h.insert_none hPQ
  next hnone =>
    refine ⟨fun {other v} hget => ?_⟩
    have hother : other ≠ name := by
      rintro rfl
      simp [hget] at hnone
    exact (h.known hget).imp_right fun h k hk => (h k hk).imp_right (hPQ _ _ hother)

end

section
variable (hown : ∀ other, other ≠ name → own'.lookup other = own.lookup other)
include hown

theorem stays_own (other : String) (i : NodeId) (hother : other ≠ name) (h : own.lookup other = some (some i)) :
    own'.lookup other = some (some i) := by rw [hown other hother, h]

theorem blank_insert {s : Scope}
    (h : ∀ name, (s.get? name).join = none ∧ (own.lookup name ≠ none → s.get? name ≠ none))
    (other : String) :
    ((s.insert name none).get? other).join = none ∧
      (own'.lookup other ≠ none → (s.insert name none).get? other ≠ none) := by
  rw [Scope.get?_insert]
  by_cases hother : other = name
  · rw [if_pos hother]
    exact ⟨rfl, fun _ => nofun⟩
  · rw [if_neg hother, hown other hother]
    exact h other

theorem Fits.forget :
    ∀ {scopes : List Scope}, Fits S own outer scopes → Fits S own' outer (ScopeStack.forget name scopes)
  | [], _ => trivial
  | s :: rest, h => by
    unfold Fits at h
    unfold ScopeStack.forget
    split
    next hkind =>
      rw [if_pos hkind] at h
      have hkind' : (s.insert name none).kind = .function := hkind
      unfold Fits
      rw [if_pos hkind']
      exact ⟨blank_insert hown h.1, h.2⟩
    next hkind =>
      rw [if_neg hkind] at h
      have hkind' : (s.forget name).kind ≠ .function := by
        unfold Scope.forget
        split <;> exact hkind
      unfold Fits
      rw [if_neg hkind']
      exact ⟨h.1.forget (stays_own hown), Fits.forget h.2⟩

theorem Fits.declare {s : ScopeStack} (h : Fits S own outer s.scopes) {v : Node} (hv : v.isIdent = false)
    (hk : ∀ k, v.number? = some k → S.number v.id = some k ∧ own'.lookup name = some (some v.id)) :
    Fits S own' outer (s.declare name v).scopes := by
  obtain ⟨scopes⟩ := s
  unfold ScopeStack.declare
  match scopes, h with
  | [], _ => trivial
  | inner :: rest, h =>
    dsimp only
    unfold Fits at h
    split
    next hkind =>
      have hne : inner.kind ≠ .function := by
        rw [hkind]
        nofun
      rw [if_neg hne] at h
      have hne' : (inner.insert name (some v)).kind ≠ .function := hne
      unfold Fits
      rw [if_neg hne']
      exact ⟨h.1.insert (stays_own hown) hv hk, h.2.forget hown⟩
    next hkind =>
      have hne : inner.kind ≠ .function := by
        rw [hkind]
        nofun
      rw [if_neg hne] at h
      have hne' : (inner.insert name none).kind ≠ .function := hne
      unfold Fits
      rw [if_neg hne']
      exact ⟨h.1.insert_none (stays_own hown), h.2.forget hown⟩
    next hkind =>
      rw [if_pos hkind] at h
      have hkind' : (inner.insert name none).kind = .function := hkind
      unfold Fits
      rw [if_pos hkind']
      exact ⟨blank_insert hown h.1, h.2⟩

end

theorem Fits.pushLetIn {s : ScopeStack} (h : Fits S own outer s.scopes) : Fits S own outer s.pushLetIn.scopes := by
  have hempty : Tells S (fun name i => own.lookup name = some (some i)) ⟨.letIn, []⟩ :=
    ⟨fun hget => by cases hget⟩
  exact ⟨hempty, h⟩

theorem mem_of_lookup_ne_none : ∀ {own : Locals}, own.lookup name ≠ none → name ∈ own.map (·.1)
  | [], h => absurd rfl h
  | (other, o) :: own, h => by
    by_cases hother : name = other
    · exact hother ▸ List.mem_cons_self
    · rw [List.lookup_cons, beq_eq_false_iff_ne.mpr hother] at h
      exact List.mem_cons_of_mem _ (mem_of_lookup_ne_none h)

theorem Tells.imp {P Q : String → NodeId → Prop} {s : Scope} (h : Tells S P s)
    (hPQ : ∀ name i, P name i → Q name i) : Tells S Q s :=
  ⟨fun hget => (h.known hget).imp_right fun h k hk => (h k hk).imp_right (hPQ _ _)⟩

theorem Fits.tells : ∀ {scopes : List Scope}, Fits S own outer scopes →
    ∀ s ∈ scopes, Tells S (fun name _ => name ∈ outer ++ own.map (·.1)) s
  | s :: rest, h, t, ht => by
    unfold Fits at h
    split at h
    next =>
      rcases List.mem_cons.mp ht with rfl | ht
      · refine ⟨fun {name v} hget => ?_⟩
        have hnone := (h.1 name).1
        rw [hget] at hnone
        cases hnone
      · exact (h.2 t ht).imp fun _ _ hname => List.mem_append_left _ hname
    next =>
      rcases List.mem_cons.mp ht with rfl | ht
      · refine h.1.imp fun name i hlookup => List.mem_append_right _ (mem_of_lookup_ne_none ?_)
        rw [hlookup]
        nofun
      · exact Fits.tells h.2 t ht

theorem lookup_params {α : Type} (name : String) : ∀ params : List String,
    (params.map (·, (none : Option α))).lookup name = if name ∈ params then some none else none
  | [] => rfl
  | param :: params => by
    rw [List.map_cons, List.lookup_cons, lookup_params name params]
    by_cases hparam : name = param
    · simp [hparam]
    · simp [hparam, beq_eq_false_iff_ne.mpr hparam]

theorem Fits.pushFunction {s : ScopeStack} (h : Fits S own outer s.scopes) (params : List String) :
    Fits S (params.map (·, none)) (outer ++ own.map (·.1)) (s.pushFunction params).scopes := by
  refine ⟨fun name => ?_, h.tells⟩
  show ((params.map (·, none)).lookup name).join = none ∧ (_ → (params.map (·, none)).lookup name ≠ none)
  rw [lookup_params, lookup_params]
  by_cases hname : name ∈ params
  · simp [hname]
  · simp [hname]

theorem Fits.lookup {v : Node} : ∀ {scopes : List Scope}, Fits S own outer scopes →
    (scopes.findSome? (·.get? name)).join = some v →
    v.isIdent = false ∧ ∀ k, v.number? = some k → S.number v.id = some k ∧
      (∀ o, own.lookup name = some o → o = some v.id) ∧ (own.lookup name = none → name ∈ outer)
  | s :: rest, h, hv => by
    unfold Fits at h
    rw [List.findSome?_cons] at hv
    split at h
    next =>
      cases hget : s.get? name with
      | some value =>
        have hnone := (h.1 name).1
        rw [hget] at hnone hv
        rw [hnone] at hv
        cases hv
      | none =>
        rw [hget] at hv
        obtain ⟨t, ht, hget'⟩ := List.exists_of_findSome?_eq_some (Option.join_eq_some_iff.mp hv)
        refine ((h.2 t ht).known hget').imp_right fun h' k hk => ⟨(h' k hk).1, fun o ho => ?_, fun _ => (h' k hk).2⟩
        have := (h.1 name).2
        rw [ho, hget] at this
        exact absurd rfl (this nofun)
    next =>
      cases hget : s.get? name with
      | some value =>
        rw [hget] at hv
        obtain rfl : value = some v := hv
        refine (h.1.known hget).imp_right fun h' k hk => ⟨(h' k hk).1, fun o ho => ?_, fun hnone => ?_⟩
        · rw [(h' k hk).2] at ho
          exact (Option.some.inj ho).symm
        · rw [(h' k hk).2] at hnone
          cases hnone
      | none =>
        rw [hget] at hv
        exact Fits.lookup h.2 hv

end

/-! ## Values -/

section
variable (S : Sources) (functions : List String)

/-- Without a number put for any name, the node has the number as its value, if its variables were stored last by their
sources. -/
inductive Worth (own : Locals) (outer : List String) : Node → Number → Prop
  | literal {n k} (h : n.number? = some k) : Worth own outer n k
  | ident {tag name j k} (hput : (tag.id, j) ∈ S.puts)
    (hk : S.number j = some k)
      (hown : ∀ o, own.lookup name = some o → o = some j) (houter : own.lookup name = none → name ∈ outer) :
      Worth own outer (.ident tag name) k
  | binary {left right op a b c} (tag : Tag) (hop : op ∈ ["+", "-", "*"])
      (hl : Worth own outer left a) (hr : Worth own outer right b) (h : a.combine? op b = some c) :
      Worth own outer (.binary tag left op right) c

mutual

/-- The second node is the first with numbers put for names. -/
inductive FoldsTo (own : Locals) (outer : List String) : Node → Node → Prop
  | known {d n k} (hd : Worth S own outer d k) (hn : n.number? = some k) : FoldsTo own outer d n
  | ident (tag : Tag) (name : String) : FoldsTo own outer (.ident tag name) (.ident tag name)
  | binary {left left' right right' op} (tag : Tag) (hop : op ∈ ["+", "-", "*"])
      (hl : FoldsTo own outer left left') (hr : FoldsTo own outer right right') :
      FoldsTo own outer (.binary tag left op right) (.binary tag left' op right')
  | call {name args args'} (tag : Tag) (hname : name ∈ functions)
      (hargs : AllFoldTo own outer args args') : FoldsTo own outer (.call tag name args) (.call tag name args')

inductive AllFoldTo (own : Locals) (outer : List String) : List Node → List Node → Prop
  | nil : AllFoldTo own outer [] []
  | cons {d n ds ns} (h : FoldsTo own outer d n) (hrest : AllFoldTo own outer ds ns) :
      AllFoldTo own outer (d :: ds) (n :: ns)

end

variable {S functions} {own : Locals} {outer : List String} {limit : Nat} {scopes scopes' : ScopeStack}

theorem known?_of_zero {k : Number} : ∀ {e : Expr}, e.known? 0 scopes = some k → e.known? limit scopes' = some k
  | .int .., h | .float .., h => h
  | .ident .., h => by simp [Expr.known?, knownNumber?] at h
  | .arithmetic _ left op right, h => by
    simp only [Expr.known?, Option.bind_eq_bind, Option.bind_eq_some_iff] at h ⊢
    obtain ⟨a, ha, b, hb, hk⟩ := h
    exact ⟨a, known?_of_zero ha, b, known?_of_zero hb, hk⟩

theorem number?_ofNumber (tag : Tag) (k : Number) : (Node.ofNumber tag k).number? = some k := by cases k <;> rfl

theorem number?_of_known {v : Node} {k : Number} (hv : v.isIdent = false) (h : knownNumber? scopes limit v = some k) :
    v.number? = some k := by
  cases v with
  | ident => cases hv
  | int _ n => simpa [knownNumber?, Node.number?] using h
  | float _ x => simpa [knownNumber?, Node.number?] using h
  | _ => simp [knownNumber?] at h

theorem worth_place (hfits : Fits S own outer scopes'.scopes) {k : Number} : ∀ {e : Expr} {next : NodeId},
    e.isBasic functions = true → e.known? limit scopes' = some k →
      e.puts limit scopes' next ++ e.putsHere scopes' next ⊆ S.puts → Worth S own outer (e.place 0 scopes next) k
  | .int .., next, _, hk, _ | .float .., next, _, hk, _ => .literal hk
  | .ident span name, next, _, hk, hputs => by
    cases limit with
    | zero => simp [Expr.known?, knownNumber?] at hk
    | succ limit =>
      obtain ⟨v, hv, hk⟩ := Option.bind_eq_some_iff.mp hk
      obtain ⟨hident, hknown⟩ := hfits.lookup hv
      obtain ⟨hsource, hown, houter⟩ := hknown k (number?_of_known hident hk)
      have hput : (next, v.id) ∈ S.puts := hputs (by simp [Expr.putsHere, hv])
      exact .ident hput hsource hown houter
  | .arithmetic span left op right, next, hb, hk, hputs => by
    simp only [Expr.isBasic, Bool.and_eq_true, List.contains_iff_mem] at hb
    have hsome : ((Expr.arithmetic span left op right).known? limit scopes').isSome = true := by rw [hk]; rfl
    simp only [Expr.puts, Expr.putsHere, if_pos hsome, List.append_nil, List.append_subset] at hputs
    obtain ⟨⟨hleft, hright⟩, hleft', hright'⟩ := hputs
    rw [Expr.place]
    split
    next k' hk' =>
      obtain rfl := Option.some.inj ((known?_of_zero hk').symm.trans hk)
      exact .literal (number?_ofNumber _ _)
    next =>
      simp only [Expr.known?, Option.bind_eq_bind, Option.bind_eq_some_iff] at hk
      obtain ⟨a, ha, b, hb', hc⟩ := hk
      exact .binary _ hb.1.1 (worth_place hfits hb.1.2 ha (List.append_subset.mpr ⟨hleft, hleft'⟩))
        (worth_place hfits hb.2 hb' (List.append_subset.mpr ⟨hright, hright'⟩)) hc
  | .call .., next, _, hk, _ => by cases hk

mutual

theorem foldsTo_place (hfits : Fits S own outer scopes'.scopes) : ∀ {e : Expr} {next : NodeId},
    e.isBasic functions = true → e.puts limit scopes' next ⊆ S.puts →
      FoldsTo S functions own outer (e.place 0 scopes next) (e.place limit scopes' next)
  | .int .., next, _, _ | .float .., next, _, _ => .known (.literal rfl) rfl
  | .ident .., next, _, _ => .ident _ _
  | .arithmetic span left op right, next, hb, hputs => by
    cases hk : (Expr.arithmetic span left op right).known? limit scopes' with
    | some k =>
      have hn : ((Expr.arithmetic span left op right).place limit scopes' next).number? = some k := by
        rw [Expr.place, hk]
        exact number?_ofNumber _ _
      exact .known (worth_place hfits hb hk (by simpa [Expr.putsHere] using hputs)) hn
    | none =>
      have hk' : (Expr.arithmetic span left op right).known? 0 scopes = none := by
        refine Option.eq_none_iff_forall_not_mem.mpr fun k hk' => ?_
        rw [known?_of_zero hk'] at hk
        cases hk
      simp only [Expr.isBasic, Bool.and_eq_true, List.contains_iff_mem] at hb
      simp only [Expr.puts, List.append_subset] at hputs
      rw [Expr.place, Expr.place, hk, hk']
      exact .binary _ hb.1.1 (foldsTo_place hfits hb.1.2 hputs.1.1) (foldsTo_place hfits hb.2 hputs.1.2)
  | .call span name args, next, hb, hputs => by
    simp only [Expr.isBasic, Bool.and_eq_true, List.contains_iff_mem] at hb
    exact .call _ hb.1 (allFoldTo_place hfits hb.2 hputs)

theorem allFoldTo_place (hfits : Fits S own outer scopes'.scopes) : ∀ {es : List Expr} {next : NodeId},
    Expr.areBasic functions es = true → Expr.putsAll limit scopes' es next ⊆ S.puts →
      AllFoldTo S functions own outer (Expr.placeAll 0 scopes es next) (Expr.placeAll limit scopes' es next)
  | [], _, _, _ => .nil
  | e :: rest, next, hb, hputs => by
    simp only [Expr.areBasic, Bool.and_eq_true] at hb
    obtain ⟨he, hrest⟩ := List.append_subset.mp hputs
    exact .cons (foldsTo_place hfits hb.1 he) (allFoldTo_place hfits hb.2 hrest)

end

end

/-! ## Statements -/

section
variable (S : Sources) (functions : List String)

mutual

/-- The second statement is the first with numbers put for names. The function has the variables of the first list
before it, and those of the second behind it. -/
inductive StmtFoldsTo (outer : List String) : Locals → Node → Node → Locals → Prop
  | decl {own v v'} (tag : Tag) (constant : Bool) (name : String)
    (hv : FoldsTo S functions own outer v v')
      (hk : S.number v.id = v'.number?) :
      StmtFoldsTo outer own (.decl tag constant name v) (.decl tag constant name v') ((name, some v.id) :: own)
  | funDecl (own : Locals) (tag : Tag) (name : String) (params : List String) (f : FunctionId) :
      StmtFoldsTo outer own (.funDecl tag name params f) (.funDecl tag name params f) own
  | letIn {own mid own' ds ds' ss ss'} (tag tag' bodyTag bodyTag' : Tag)
      (hds : StmtsFoldTo outer own ds ds' mid) (hss : StmtsFoldTo outer mid ss ss' own') :
      StmtFoldsTo outer own (.letIn tag ds (.block bodyTag ss)) (.letIn tag' ds' (.block bodyTag' ss')) own'
  | print {own args args'} (tag : Tag) (hargs : AllFoldTo S functions own outer args args') :
      StmtFoldsTo outer own (.print tag args) (.print tag args') own
  | ret {own v v'} (tag : Tag) (hv : FoldsTo S functions own outer v v') :
      StmtFoldsTo outer own (.ret tag v) (.ret tag v') own
  | call {own name args args'} (tag : Tag) (hname : name ∈ functions)
      (hargs : AllFoldTo S functions own outer args args') :
      StmtFoldsTo outer own (.call tag name args) (.call tag name args') own

inductive StmtsFoldTo (outer : List String) : Locals → List Node → List Node → Locals → Prop
  | nil (own : Locals) : StmtsFoldTo outer own [] [] own
  | cons {own mid own' d n ds ns} (h : StmtFoldsTo outer own d n mid)
      (hrest : StmtsFoldTo outer mid ds ns own') : StmtsFoldTo outer own (d :: ds) (n :: ns) own'

end

structure LiftedFoldsTo (d n : Lifted) : Prop where
  id : d.record.id = n.record.id
  name : d.record.name = n.record.name
  params : d.record.params = n.record.params
  parent : d.record.parent = n.record.parent
  statements : StmtsFoldTo S functions d.outer (d.record.params.map (·, none)) d.statements n.statements d.own

structure PlacedFoldsTo (outer : List String) (own : Locals) (d n : Placed) : Prop where
  spot : d.spot = { n.spot with scopes := d.spot.scopes }
  nodes : StmtsFoldTo S functions outer own d.nodes n.nodes n.spot.own
  functions : List.Forall₂ (LiftedFoldsTo S functions) d.functions n.functions

variable {S functions} {outer : List String} {own : Locals}

theorem StmtsFoldTo.append : ∀ {own mid own' : Locals} {ds ns ds' ns' : List Node},
    StmtsFoldTo S functions outer own ds ns mid → StmtsFoldTo S functions outer mid ds' ns' own' →
      StmtsFoldTo S functions outer own (ds ++ ds') (ns ++ ns') own'
  | _, _, _, _, _, _, _, .nil _, h' => h'
  | _, _, _, _, _, _, _, .cons hn hrest, h' => .cons hn (hrest.append h')

theorem PlacedFoldsTo.append {d n d' n' : Placed} (h : PlacedFoldsTo S functions outer own d n)
    (h' : PlacedFoldsTo S functions outer n.spot.own d' n') :
    PlacedFoldsTo S functions outer own (d.append d') (n.append n') :=
  ⟨h'.spot, h.nodes.append h'.nodes, List.rel_append h.functions h'.functions⟩

theorem PlacedFoldsTo.single {d n : Placed} {m m' : Node} (hspot : d.spot = { n.spot with scopes := d.spot.scopes })
    (hd : d.nodes = [m]) (hn : n.nodes = [m']) (h : StmtFoldsTo S functions outer own m m' n.spot.own)
    (hfunctions : d.functions = []) (hfunctions' : n.functions = []) : PlacedFoldsTo S functions outer own d n := by
  refine ⟨hspot, ?_, ?_⟩
  · rw [hd, hn]
    exact .cons h (.nil _)
  · rw [hfunctions, hfunctions']
    exact .nil

theorem Fits.pop {s : Scope} {rest : List Scope} {stack : ScopeStack} (h : Fits S own outer stack.scopes)
    (hshape : ScopeStack.SameShape (s :: rest) stack.scopes) (hkind : s.kind ≠ .function) :
    Fits S own outer stack.pop.scopes := by
  obtain ⟨scopes⟩ := stack
  match scopes, h, hshape with
  | t :: _, h, ⟨hsame, _⟩ =>
    unfold Fits at h
    rw [if_neg (hsame ▸ hkind)] at h
    exact h.2

section
variable {limit : Nat}

theorem isIdent_place {scopes : ScopeStack} {next : NodeId} : ∀ {e : Expr}, e.isIdent = false →
    (e.place limit scopes next).isIdent = false
  | .arithmetic .., _ => by
    rw [Expr.place]
    split
    next k _ => cases k <;> rfl
    next => rfl
  | .int .., _ | .float .., _ | .str .., _ | .comparison .., _ | .call .., _ | .access .., _ | .list .., _
  | .lambda .., _ | .malformed .., _ => rfl

mutual

theorem stmt_foldsTo (f : FunctionId) (outer : List String) : ∀ {stmt : Stmt} {c : Spot} (scopes : ScopeStack),
    stmt.isBasic functions = true → Fits S c.own outer c.scopes.scopes →
      (stmt.place limit f outer c).puts ⊆ S.puts →
    (∀ v ∈ (stmt.place limit f outer c).values, S.number v.1 = v.2) →
      PlacedFoldsTo S functions outer c.own (stmt.place 0 f outer { c with scopes }) (stmt.place limit f outer c) ∧
      Fits S (stmt.place limit f outer c).spot.own outer (stmt.place limit f outer c).spot.scopes.scopes
  | .decl span constant name value, c, scopes, hb, hfits, hputs, hvalues => by
    simp only [Stmt.isBasic, Bool.and_eq_true] at hb
    have hid : (value.place 0 scopes c.next).id = (value.place limit c.scopes c.next).id :=
      Nat.succ.inj ((value.id_place c.next).trans (value.id_place c.next).symm)
    have hk : S.number (value.place limit c.scopes c.next).id = (value.place limit c.scopes c.next).number? :=
      hvalues _ (List.mem_singleton_self _)
    have hdecl := StmtFoldsTo.decl ⟨c.next + value.size, span⟩ constant name
      (foldsTo_place hfits hb.1 hputs) (hid ▸ hk)
    rw [hid] at hdecl
    refine ⟨.single ?_ rfl rfl hdecl rfl rfl, ?_⟩
    · simp only [Stmt.place, hid]
    · refine hfits.declare (fun other hother => ?_) ?_ fun k hnumber => ⟨hk.trans hnumber, ?_⟩
      · simp [Stmt.place, List.lookup_cons, beq_eq_false_iff_ne.mpr hother]
      · exact isIdent_place (by simpa using hb.2)
      · simp [Stmt.place]
  | .lambdaDecl span name lambdaSpan params body, c, scopes, hb, hfits, hputs, hvalues => by
    have hbody := body_foldsTo c.size (outer ++ c.own.map (·.1)) (scopes.pushFunction params) hb
      (hfits.pushFunction params) hputs hvalues
    have hscopes : (body.place limit c.size (outer ++ c.own.map (·.1))
      ⟨c.next + 1, c.size + 1, c.scopes.pushFunction params, params.map (·, none)⟩).spot.scopes = c.scopes :=
      body.scopes_place _ rfl
    refine ⟨⟨?_, .cons (.funDecl ..) (.nil _), .cons ⟨rfl, rfl, rfl, rfl, ?_⟩ hbody.functions⟩, ?_⟩
    · simp only [Stmt.place]
      rw [hbody.spot]
    · have hown := congrArg Spot.own hbody.spot
      dsimp only at hown ⊢
      rw [hown]
      exact hbody.nodes
    · simp only [Stmt.place]
      rw [hscopes]
      exact hfits.declare (fun _ _ => rfl) rfl nofun
  | .letIn span decls bodySpan body, c, scopes, hb, hfits, hputs, hvalues => by
    simp only [Stmt.isBasic, Bool.and_eq_true] at hb
    obtain ⟨hputs, hputs'⟩ := List.append_subset.mp hputs
    obtain ⟨hvalues, hvalues'⟩ := List.forall_mem_append.mp hvalues
    let c₁ : Spot := { c with scopes := c.scopes.pushLetIn }
    obtain ⟨hdecls, hfits⟩ := stmts_foldTo f outer (c := c₁) scopes.pushLetIn hb.1 hfits.pushLetIn hputs hvalues
    obtain ⟨hbody, hfits⟩ :=
      stmts_foldTo f outer (Stmt.placeAll 0 f outer decls { c₁ with scopes := scopes.pushLetIn }).spot.scopes
      hb.2 hfits hputs' hvalues'
    rw [← hdecls.spot] at hbody
    refine ⟨⟨?_, .cons (.letIn _ _ _ _ hdecls.nodes hbody.nodes) (.nil _), (hdecls.append hbody).functions⟩,
      hfits.pop ((Stmt.sameShape_placeAll decls c₁).trans (Stmt.sameShape_placeAll body _)) nofun⟩
    simp only [Stmt.place]
    rw [hbody.spot]
  | .print span args, c, scopes, hb, hfits, hputs, _ =>
    ⟨.single rfl rfl rfl (.print _ (allFoldTo_place hfits hb hputs)) rfl rfl, hfits⟩
  | .ret span value, c, scopes, hb, hfits, hputs, _ =>
    ⟨.single rfl rfl rfl (.ret _ (foldsTo_place hfits hb hputs)) rfl rfl, hfits⟩
  | .expr (.call span name args), c, scopes, hb, hfits, hputs, _ => by
    simp only [Stmt.isBasic, Expr.isBasic, Bool.and_eq_true, List.contains_iff_mem] at hb
    exact ⟨.single rfl rfl rfl (.call _ hb.2.1 (allFoldTo_place hfits hb.2.2 hputs)) rfl rfl, hfits⟩

theorem body_foldsTo (f : FunctionId) (outer : List String) : ∀ {body : Body} {c : Spot} (scopes : ScopeStack),
    body.isBasic functions = true → Fits S c.own outer c.scopes.scopes →
      (body.place limit f outer c).puts ⊆ S.puts →
    (∀ v ∈ (body.place limit f outer c).values, S.number v.1 = v.2) →
      PlacedFoldsTo S functions outer c.own (body.place 0 f outer { c with scopes }) (body.place limit f outer c)
  | .block span statements, c, scopes, hb, hfits, hputs, hvalues => by
    have hstatements := (stmts_foldTo f outer scopes hb hfits hputs hvalues).1
    refine ⟨?_, hstatements.nodes, hstatements.functions⟩
    simp only [Body.place]
    rw [hstatements.spot]
  | .value span value, c, scopes, hb, hfits, hputs, _ =>
    .single rfl rfl rfl (.ret _ (foldsTo_place hfits hb hputs)) rfl rfl

theorem stmts_foldTo (f : FunctionId) (outer : List String) :
    ∀ {statements : List Stmt} {c : Spot} (scopes : ScopeStack),
    Stmt.areBasic functions statements = true → Fits S c.own outer c.scopes.scopes →
    (Stmt.placeAll limit f outer statements c).puts ⊆ S.puts →
    (∀ v ∈ (Stmt.placeAll limit f outer statements c).values, S.number v.1 = v.2) →
      PlacedFoldsTo S functions outer c.own (Stmt.placeAll 0 f outer statements { c with scopes })
        (Stmt.placeAll limit f outer statements c) ∧
      Fits S (Stmt.placeAll limit f outer statements c).spot.own outer
        (Stmt.placeAll limit f outer statements c).spot.scopes.scopes
  | [], c, scopes, _, hfits, _, _ => ⟨⟨rfl, .nil _, .nil⟩, hfits⟩
  | stmt :: rest, c, scopes, hb, hfits, hputs, hvalues => by
    simp only [Stmt.areBasic, Bool.and_eq_true] at hb
    obtain ⟨hputs, hputs'⟩ := List.append_subset.mp hputs
    obtain ⟨hvalues, hvalues'⟩ := List.forall_mem_append.mp hvalues
    obtain ⟨hstmt, hfits⟩ := stmt_foldsTo f outer scopes hb.1 hfits hputs hvalues
    obtain ⟨hrest, hfits⟩ :=
      stmts_foldTo f outer (stmt.place 0 f outer { c with scopes }).spot.scopes hb.2 hfits hputs' hvalues'
    rw [← hstmt.spot] at hrest
    exact ⟨hstmt.append hrest, hfits⟩

end

end

end

end Unfolding

end Bies
