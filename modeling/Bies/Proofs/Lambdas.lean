import Bies.Proofs.NumericLoading
import Bies.Proofs.TableGrowth

/-!
# Programs of lambdas

Declarations, let-ins, prints and calls, over numbers, names, sums, differences and products. Every lambda
has a name of its own. What loading makes of such a program is written here without a state: `place` gives
the nodes and the functions, and with them for which identifiers a number is put, and where each number is
taken from.
-/

namespace Bies

open Loading

/-! ## Programs -/

def Expr.isIdent : Expr → Bool
  | .ident .. => true
  | _ => false

def Expr.isCall : Expr → Bool
  | .call .. => true
  | _ => false

mutual

def Expr.isBasic (functions : List String) : Expr → Bool
  | .int .. | .float .. | .ident .. => true
  | .arithmetic _ left op right =>
    ["+", "-", "*"].contains op && left.isBasic functions && right.isBasic functions
  | .call _ name args => functions.contains name && Expr.areBasic functions args
  | _ => false

def Expr.areBasic (functions : List String) : List Expr → Bool
  | [] => true
  | e :: rest => e.isBasic functions && Expr.areBasic functions rest

end

mutual

def Stmt.lambdas : Stmt → List String
  | .lambdaDecl _ name _ _ body => name :: body.lambdas
  | .letIn _ decls _ body => Stmt.lambdasAll decls ++ Stmt.lambdasAll body
  | _ => []

def Body.lambdas : Body → List String
  | .block _ statements => Stmt.lambdasAll statements
  | .value .. => []

def Stmt.lambdasAll : List Stmt → List String
  | [] => []
  | stmt :: rest => stmt.lambdas ++ Stmt.lambdasAll rest

end

mutual

def Stmt.isBasic (functions : List String) : Stmt → Bool
  | .decl _ _ _ value => value.isBasic functions && !value.isIdent
  | .lambdaDecl _ _ _ _ body => body.isBasic functions
  | .letIn _ decls _ body => Stmt.areBasic functions decls && Stmt.areBasic functions body
  | .print _ args => Expr.areBasic functions args
  | .ret _ value => value.isBasic functions
  | .expr value => value.isCall && value.isBasic functions
  | _ => false

def Body.isBasic (functions : List String) : Body → Bool
  | .block _ statements => Stmt.areBasic functions statements
  | .value _ value => value.isBasic functions

def Stmt.areBasic (functions : List String) : List Stmt → Bool
  | [] => true
  | stmt :: rest => stmt.isBasic functions && Stmt.areBasic functions rest

end

/-- A program of declarations, let-ins, prints and calls of lambdas, each of which has a name of its own. -/
def Program.isBasic (program : Program) : Bool :=
  let lambdas := Stmt.lambdasAll program
  Stmt.areBasic lambdas program && (mainName :: lambdas).Nodup && lambdas.all ('#' ∉ ·.toList)

/-! ## Expressions -/

mutual

def Expr.size : Expr → Nat
  | .arithmetic _ left _ right => left.size + right.size + 1
  | .call _ _ args => Expr.sizes args + 1
  | _ => 1

def Expr.sizes : List Expr → Nat
  | [] => 0
  | e :: rest => e.size + Expr.sizes rest

end

section
variable (limit : Nat) (scopes : ScopeStack)

mutual

def Expr.place : Expr → (next : NodeId) → Node
  | .int span n, next => .int ⟨next, span⟩ n
  | .float span x, next => .float ⟨next, span⟩ x
  | .ident span name, next => .ident ⟨next, span⟩ name
  | e@(.arithmetic span left op right), next =>
    let tag := ⟨next + left.size + right.size, span⟩
    match e.known? limit scopes with
    | some k => .ofNumber tag k
    | none => .binary tag (left.place next) op (right.place (next + left.size))
  | .call span name args, next => .call ⟨next + Expr.sizes args, span⟩ name (Expr.placeAll args next)
  | _, next => .str ⟨next, ⟨0, 0⟩⟩ ""

def Expr.placeAll : List Expr → (next : NodeId) → List Node
  | [], _ => []
  | e :: rest, next => e.place next :: Expr.placeAll rest (next + e.size)

end

def Expr.putsHere : Expr → (next : NodeId) → List (NodeId × NodeId)
  | .ident _ name, next => ((scopes.lookup name).map fun n => (next, n.id)).toList
  | _, _ => []

mutual

def Expr.puts : Expr → (next : NodeId) → List (NodeId × NodeId)
  | e@(.arithmetic _ left _ right), next =>
    left.puts next ++ right.puts (next + left.size) ++
      if (e.known? limit scopes).isSome then
        left.putsHere scopes next ++ right.putsHere scopes (next + left.size)
      else []
  | .call _ _ args, next => Expr.putsAll args next
  | _, _ => []

def Expr.putsAll : List Expr → (next : NodeId) → List (NodeId × NodeId)
  | [], _ => []
  | e :: rest, next => e.puts next ++ Expr.putsAll rest (next + e.size)

end

end

/-! ## Statements -/

abbrev Locals := List (String × Option NodeId)

structure Spot where
  next : NodeId
  /-- How many functions there are. -/
  size : Nat
  scopes : ScopeStack
  /-- The variables of the function. -/
  own : Locals

structure Lifted where
  record : FunctionRecord
  statements : List Node
  /-- The variables of the functions around it where it is declared. -/
  outer : List String
  own : Locals

structure Placed where
  nodes : List Node
  /-- Where the statements end. -/
  spot : Spot
  functions : List Lifted
  puts : List (NodeId × NodeId)
  /-- The values of the declarations, each with its number, if it is known. -/
  values : List (NodeId × Option Number)

def Placed.append (p q : Placed) : Placed where
  nodes := p.nodes ++ q.nodes
  spot := q.spot
  functions := p.functions ++ q.functions
  puts := p.puts ++ q.puts
  values := p.values ++ q.values

section
variable (limit : Nat)

mutual

/-- What a statement of the function `f` is loaded as; `outer` are the variables of the functions around. -/
def Stmt.place (f : FunctionId) (outer : List String) : Stmt → Spot → Placed
  | .decl span constant name value, c =>
    let v := value.place limit c.scopes c.next
    { nodes := [.decl ⟨c.next + value.size, span⟩ constant name v]
      spot := ⟨c.next + value.size + 1, c.size, c.scopes.declare name v, (name, some v.id) :: c.own⟩
      functions := []
      puts := value.puts limit c.scopes c.next
      values := [(v.id, v.number?)] }
  | .lambdaDecl span name _ params body, c =>
    let outer' := outer ++ c.own.map (·.1)
    let b := body.place c.size outer'
      ⟨c.next + 1, c.size + 1, c.scopes.pushFunction params, params.map (·, none)⟩
    let n := .funDecl ⟨c.next, span⟩ name params c.size
    { nodes := [n]
      spot := ⟨b.spot.next, b.spot.size, b.spot.scopes.declare name n, c.own⟩
      functions := ⟨⟨c.size, name, params, some f, Node.entries b.nodes⟩, b.nodes, outer',
        b.spot.own⟩ :: b.functions
      puts := b.puts
      values := b.values }
  | .letIn span decls bodySpan body, c =>
    let ds := Stmt.placeAll f outer decls { c with scopes := c.scopes.pushLetIn }
    let ss := Stmt.placeAll f outer body ds.spot
    { ds.append ss with
      nodes := [.letIn ⟨ss.spot.next + 1, span⟩ ds.nodes (.block ⟨ss.spot.next, bodySpan⟩ ss.nodes)]
      spot := { ss.spot with next := ss.spot.next + 2, scopes := ss.spot.scopes.pop } }
  | .print span args, c =>
    { nodes := [.print ⟨c.next + Expr.sizes args, span⟩ (Expr.placeAll limit c.scopes args c.next)]
      spot := { c with next := c.next + Expr.sizes args + 1 }
      functions := []
      puts := Expr.putsAll limit c.scopes args c.next
      values := [] }
  | .ret span value, c =>
    { nodes := [.ret ⟨c.next + value.size, span⟩ (value.place limit c.scopes c.next)]
      spot := { c with next := c.next + value.size + 1 }
      functions := []
      puts := value.puts limit c.scopes c.next
      values := [] }
  | .expr value, c =>
    { nodes := [value.place limit c.scopes c.next]
      spot := { c with next := c.next + value.size }
      functions := []
      puts := value.puts limit c.scopes c.next
      values := [] }
  | _, c => ⟨[], c, [], [], []⟩

def Body.place (f : FunctionId) (outer : List String) : Body → Spot → Placed
  | .block _ statements, c =>
    let ss := Stmt.placeAll f outer statements c
    { ss with spot := { ss.spot with next := ss.spot.next + 1, scopes := ss.spot.scopes.pop } }
  | .value span value, c =>
    { nodes := [.ret ⟨c.next + value.size, span⟩ (value.place limit c.scopes c.next)]
      spot := { c with next := c.next + value.size + 1, scopes := c.scopes.pop }
      functions := []
      puts := value.puts limit c.scopes c.next
      values := [] }

def Stmt.placeAll (f : FunctionId) (outer : List String) : List Stmt → Spot → Placed
  | [], c => ⟨[], c, [], [], []⟩
  | stmt :: rest, c =>
    (stmt.place f outer c).append (Stmt.placeAll f outer rest (stmt.place f outer c).spot)

end

end

/-! ## Loading gives what is placed -/

section
variable {functions : List String}

theorem Expr.knownNumber?_place {limit : Nat} {scopes : ScopeStack} {next : NodeId} :
    ∀ {e : Expr}, e.isBasic functions = true →
    knownNumber? scopes limit (e.place limit scopes next) = e.known? limit scopes
  | .int .., _ | .float .., _ | .ident .., _ => by cases limit <;> rfl
  | .arithmetic .., _ => by
    rw [place]
    split
    next k hk => rw [Node.knownNumber?_ofNumber, hk]
    next hk => rw [hk]; simp [knownNumber?]
  | .call .., _ => by simp [place, knownNumber?, known?]

mutual

theorem loadExpr_place (here : Place) : ∀ {e : Expr} (s : State), e.isBasic functions = true →
    (loadExpr here e).run s = .ok (e.place s.names s.scopes s.nextId) { s with nextId := s.nextId + e.size }
  | .int .., s, _ | .float .., s, _ | .ident .., s, _ => by
    unfold loadExpr
    exact build_eq_ok.mpr ⟨rfl, rfl⟩
  | .arithmetic span left op right, s, he => by
    simp only [Expr.isBasic, Bool.and_eq_true] at he
    have hleft := loadExpr_place here s he.1.2
    have hright := loadExpr_place here { s with nextId := s.nextId + left.size } he.2
    obtain ⟨n, hbuild, hmade⟩ := exists_buildArithmetic { s with nextId := s.nextId + left.size + right.size } span
      (left.place s.names s.scopes s.nextId) op (right.place s.names s.scopes (s.nextId + left.size))
    dsimp only at hmade
    rw [Expr.knownNumber?_place he.1.2, Expr.knownNumber?_place he.2] at hmade
    have hn : n = (Expr.arithmetic span left op right).place s.names s.scopes s.nextId := by
      rw [Expr.place, Expr.known?]
      obtain ⟨k, hk, rfl⟩ | ⟨hk, rfl⟩ := hmade
      · rw [hk]
      · rw [hk]
    rw [hn] at hbuild
    unfold loadExpr
    rw [Expr.size, ← Nat.add_assoc, ← Nat.add_assoc]
    exact bind_eq_ok.mpr ⟨_, _, hleft, bind_eq_ok.mpr ⟨_, _, hright, hbuild⟩⟩
  | .call span name args, s, he => by
    simp only [Expr.isBasic, Bool.and_eq_true] at he
    unfold loadExpr
    refine bind_eq_ok.mpr ⟨_, _, loadExprs_place here s he.2, build_eq_ok.mpr ⟨rfl, ?_⟩⟩
    rfl

theorem loadExprs_place (here : Place) : ∀ {es : List Expr} (s : State), Expr.areBasic functions es = true →
    (loadExprs here es).run s = .ok (Expr.placeAll s.names s.scopes es s.nextId)
      { s with nextId := s.nextId + Expr.sizes es }
  | [], s, _ => rfl
  | e :: rest, s, he => by
    simp only [Expr.areBasic, Bool.and_eq_true] at he
    unfold loadExprs
    refine bind_eq_ok.mpr ⟨_, _, loadExpr_place here s he.1,
      bind_eq_ok.mpr ⟨_, _, loadExprs_place here _ he.2, ?_⟩⟩
    exact pure_eq_ok.mpr ⟨rfl, by simp only [Expr.sizes, Nat.add_assoc]⟩

end

namespace Loading

def State.spot (s : State) (own : Locals) : Spot := ⟨s.nextId, s.table.size, s.scopes, own⟩

def State.after (s : State) (f : FunctionId) (entries : List Node) (p : Placed) (events : List Event) : State :=
  { s with
    nextId := p.spot.next
    table := s.table.extend f entries (p.functions.map (·.record))
    scopes := p.spot.scopes
    events }

end Loading

mutual

theorem Stmt.size_place {limit : Nat} {f : FunctionId} {outer : List String} : ∀ (stmt : Stmt) (c : Spot),
    (stmt.place limit f outer c).spot.size = c.size + (stmt.place limit f outer c).functions.length
  | .lambdaDecl _ _ _ _ body, c => by
    simp [Stmt.place, body.size_place, Nat.add_assoc, Nat.add_comm 1]
  | .letIn _ decls _ body, c => by
    simp [Stmt.place, Placed.append, Stmt.size_placeAll body, Stmt.size_placeAll decls, Nat.add_assoc]
  | .decl .., c | .print .., c | .ret .., c | .expr .., c | .funDecl .., c | .ifThen .., c | .ifElse .., c
  | .ifElseIf .., c | .block .., c | .malformed .., c => rfl

theorem Body.size_place {limit : Nat} {f : FunctionId} {outer : List String} : ∀ (body : Body) (c : Spot),
    (body.place limit f outer c).spot.size = c.size + (body.place limit f outer c).functions.length
  | .block _ statements, c => Stmt.size_placeAll statements c
  | .value .., _ => rfl

theorem Stmt.size_placeAll {limit : Nat} {f : FunctionId} {outer : List String} :
    ∀ (statements : List Stmt) (c : Spot),
    (Stmt.placeAll limit f outer statements c).spot.size =
      c.size + (Stmt.placeAll limit f outer statements c).functions.length
  | [], _ => rfl
  | stmt :: rest, c => by
    simp [Stmt.placeAll, Placed.append, Stmt.size_placeAll rest, stmt.size_place, Nat.add_assoc]

end

mutual

theorem Stmt.lambdas_place {limit : Nat} {f : FunctionId} {outer : List String} : ∀ (stmt : Stmt) (c : Spot),
    (stmt.place limit f outer c).functions.map (·.record.name) = stmt.lambdas
  | .lambdaDecl _ _ _ _ body, c => by simp [Stmt.place, Stmt.lambdas, body.lambdas_place]
  | .letIn _ decls _ body, c => by simp [Stmt.place, Stmt.lambdas, Placed.append, Stmt.lambdas_placeAll]
  | .decl .., c | .print .., c | .ret .., c | .expr .., c | .funDecl .., c | .ifThen .., c | .ifElse .., c
  | .ifElseIf .., c | .block .., c | .malformed .., c => rfl

theorem Body.lambdas_place {limit : Nat} {f : FunctionId} {outer : List String} : ∀ (body : Body) (c : Spot),
    (body.place limit f outer c).functions.map (·.record.name) = body.lambdas
  | .block _ statements, c => Stmt.lambdas_placeAll statements c
  | .value .., _ => rfl

theorem Stmt.lambdas_placeAll {limit : Nat} {f : FunctionId} {outer : List String} :
    ∀ (statements : List Stmt) (c : Spot),
      (Stmt.placeAll limit f outer statements c).functions.map (·.record.name) = Stmt.lambdasAll statements
  | [], _ => rfl
  | stmt :: rest, c =>
    by simp [Stmt.placeAll, Stmt.lambdasAll, Placed.append, stmt.lambdas_place, Stmt.lambdas_placeAll rest]

end

namespace Loading

structure Ready (s : State) (f : FunctionId) (lambdas : List String) : Prop where
  function : f < s.table.size
  main : mainName ∈ s.table.names
  apart : (s.table.names ++ lambdas).Nodup

section
variable {s : State} {f : FunctionId} {p q : Placed} {entries more : List Node} {events later : List Event}

theorem State.after_nil (h : p.functions = []) :
    s.after f [] p events = { s with nextId := p.spot.next, scopes := p.spot.scopes, events } := by
  rw [State.after, h, List.map_nil, FunctionTable.extend_nil]

theorem State.after_after (hf : f < s.table.size) :
    (s.after f entries p events).after f more q later = s.after f (entries ++ more) (p.append q) later := by
  simp only [State.after, Placed.append, FunctionTable.extend_extend hf, List.map_append]

theorem append_after (hf : f < s.table.size) (n : Node) :
    (append f n).run (s.after f entries p events) = .ok () (s.after f (entries ++ [n]) p events) := by
  refine append_eq_ok.mpr ⟨?_, ?_⟩
  · rw [State.after, FunctionTable.size_extend]
    exact Nat.lt_add_right _ hf
  · simp only [State.after, FunctionTable.append_eq_extend, FunctionTable.extend_extend hf, List.append_nil]

theorem State.spot_after (h : p.spot.size = s.table.size + p.functions.length) :
    (s.after f entries p events).spot p.spot.own = p.spot := by
  rw [State.spot, State.after, FunctionTable.size_extend, List.length_map, ← h]

theorem Ready.after {lambdas rest : List String} (h : Ready s f (lambdas ++ rest))
    (hp : p.functions.map (·.record.name) = lambdas) : Ready (s.after f entries p events) f rest := by
  have hnames : (s.after f entries p events).table.names = s.table.names ++ lambdas := by
    rw [State.after, FunctionTable.names_extend, List.map_map, ← hp]
    rfl
  refine ⟨?_, ?_, ?_⟩
  · rw [State.after, FunctionTable.size_extend]
    exact Nat.lt_add_right _ h.function
  · rw [hnames]
    exact List.mem_append_left _ h.main
  · rw [hnames, List.append_assoc]
    exact h.apart

theorem Ready.left {lambdas rest : List String} (h : Ready s f (lambdas ++ rest)) : Ready s f lambdas := by
  refine ⟨h.function, h.main, ?_⟩
  have := h.apart
  rw [← List.append_assoc] at this
  exact this.of_append_left

end

end Loading

mutual

theorem loadStmt_place (f : FunctionId) (outer : List String) (own : Locals) : ∀ {stmt : Stmt} {s : State},
    stmt.isBasic functions = true → Ready s f stmt.lambdas → ∃ n events,
      (stmt.place s.names f outer (s.spot own)).nodes = [n] ∧
      (loadStmt ⟨f, false⟩ stmt).run s = .ok n (s.after f n.nested (stmt.place s.names f outer (s.spot own)) events)
  | .decl span constant name value, s, hb, hs => by
    simp only [Stmt.isBasic, Bool.and_eq_true] at hb
    refine ⟨_, s.events, rfl, ?_⟩
    unfold loadStmt
    refine bind_eq_ok.mpr ⟨_, _, loadExpr_place _ s hb.1, bind_eq_ok.mpr ⟨_, _, build_eq_ok.mpr ⟨rfl, rfl⟩,
      bind_eq_ok.mpr ⟨(), _, modify_eq_ok.mpr rfl, pure_eq_ok.mpr ⟨rfl, ?_⟩⟩⟩⟩
    symm
    exact State.after_nil rfl
  | .lambdaDecl span name lambdaSpan params body, s, hb, hs => by
    have hmain : name ≠ mainName := fun h => by
      have hdisjoint := (List.nodup_append.mp hs.apart).2.2 mainName hs.main name (List.mem_cons_self ..)
      exact hdisjoint h.symm
    have hname : name ∉ s.table.names := fun h =>
      (List.nodup_append.mp hs.apart).2.2 name h name (List.mem_cons_self ..) rfl
    let r : FunctionRecord := ⟨s.table.size, name, params, some f, []⟩
    let s₁ : State :=
      { s with
        nextId := s.nextId + 1
        table := s.table.extend f [] [r]
        events := s.events ++ [.liftedLambda s.table.size name] }
    have hready : Ready s₁ s.table.size body.lambdas := by
      refine ⟨?_, ?_, ?_⟩
      · rw [FunctionTable.size_extend]
        exact Nat.lt_succ_self _
      · rw [FunctionTable.names_extend]
        exact List.mem_append_left _ hs.main
      · rw [FunctionTable.names_extend, List.append_assoc]
        exact hs.apart
    obtain ⟨n, events, hbody⟩ :=
      loadBody_place s.table.size (outer ++ own.map (·.1)) params (params.map (·, none)) hb hready
    have hdeclare : (declareFunction f name params lambdaSpan).run { s with nextId := s.nextId + 1 } =
        .ok s.table.size { s with nextId := s.nextId + 1, table := s.table.extend f [] [r] } := by
      unfold declareFunction
      rw [if_neg hmain]
      refine modifyGet_eq_ok.mpr ?_
      rw [FunctionTable.declare_new hname]
    have hclear : s₁.table.clear s.table.size = s₁.table := FunctionTable.clear_last rfl
    have hsize : s₁.table.size = s.table.size + 1 := FunctionTable.size_extend
    rw [hsize] at hbody
    refine ⟨_, events, rfl, ?_⟩
    unfold loadStmt
    refine bind_eq_ok.mpr ⟨s.nextId, _, modifyGet_eq_ok.mpr rfl, bind_eq_ok.mpr ⟨s.table.size, _, hdeclare,
      bind_eq_ok.mpr ⟨(), { s₁ with events := s.events }, modify_eq_ok.mpr ?_,
      bind_eq_ok.mpr ⟨(), s₁, modify_eq_ok.mpr rfl, bind_eq_ok.mpr ⟨n, _, hbody,
      bind_eq_ok.mpr ⟨(), _, modify_eq_ok.mpr rfl, pure_eq_ok.mpr ⟨rfl, ?_⟩⟩⟩⟩⟩⟩⟩
    · exact congrArg (fun table => { s₁ with table, events := s.events }) hclear
    · simp only [State.after, s₁, FunctionTable.extend_last]
      rfl
  | .letIn span decls bodySpan body, s, hb, hs => by
    simp only [Stmt.isBasic, Bool.and_eq_true] at hb
    let s₁ : State := { s with scopes := s.scopes.pushLetIn }
    have hready : Ready s₁ f (Stmt.lambdasAll decls ++ Stmt.lambdasAll body) := ⟨hs.function, hs.main, hs.apart⟩
    obtain ⟨events, hdecls⟩ := loadBlock_place f outer own hb.1 hready.left
    obtain ⟨events', hbody⟩ :=
      loadBlock_place f outer (Stmt.placeAll s₁.names f outer decls (s₁.spot own)).spot.own hb.2
      (hready.after (Stmt.lambdas_placeAll decls _))
    rw [State.spot_after (Stmt.size_placeAll decls _)] at hbody
    refine ⟨_, events', rfl, ?_⟩
    unfold loadStmt
    refine bind_eq_ok.mpr ⟨(), s₁, modify_eq_ok.mpr rfl,
      bind_eq_ok.mpr ⟨_, _, hdecls, bind_eq_ok.mpr ⟨_, _, hbody,
      bind_eq_ok.mpr ⟨(), _, modify_eq_ok.mpr rfl, bind_eq_ok.mpr ⟨_, _, build_eq_ok.mpr ⟨rfl, rfl⟩,
      build_eq_ok.mpr ⟨rfl, ?_⟩⟩⟩⟩⟩⟩
    rw [State.after_after hready.function]
    rfl
  | .print span args, s, hb, hs => by
    refine ⟨_, s.events, rfl, ?_⟩
    unfold loadStmt
    refine bind_eq_ok.mpr ⟨_, _, loadExprs_place _ s hb, build_eq_ok.mpr ⟨rfl, ?_⟩⟩
    exact State.after_nil rfl
  | .ret span value, s, hb, hs => by
    refine ⟨_, s.events, rfl, ?_⟩
    unfold loadStmt
    refine bind_eq_ok.mpr ⟨_, _, loadExpr_place _ s hb, build_eq_ok.mpr ⟨rfl, ?_⟩⟩
    exact State.after_nil rfl
  | .expr value, s, hb, hs => by
    simp only [Stmt.isBasic, Bool.and_eq_true] at hb
    refine ⟨_, s.events, rfl, ?_⟩
    unfold loadStmt
    rw [loadExpr_place _ s hb.2]
    congr 1
    have hnested : (value.place s.names s.scopes s.nextId).nested = [] := by
      cases value <;> first | rfl | cases hb.1
    rw [State.spot, hnested]
    symm
    exact State.after_nil rfl

theorem loadBody_place (f : FunctionId) (outer params : List String) (own : Locals) : ∀ {body : Body} {s : State},
    body.isBasic functions = true → Ready s f body.lambdas → ∃ n events, (loadBody f params body).run s =
      let p := body.place s.names f outer ⟨s.nextId, s.table.size, s.scopes.pushFunction params, own⟩
      .ok n (s.after f (Node.entries p.nodes) p events)
  | .block span statements, s, hb, hs => by
    let s₁ : State := { s with scopes := s.scopes.pushFunction params }
    have hready : Ready s₁ f (Stmt.lambdasAll statements) := ⟨hs.function, hs.main, hs.apart⟩
    obtain ⟨events, hstatements⟩ := loadSequence_place f outer own hb hready
    unfold loadBody
    exact ⟨_, events, bind_eq_ok.mpr ⟨(), s₁, modify_eq_ok.mpr rfl, bind_eq_ok.mpr ⟨_, _, hstatements,
      bind_eq_ok.mpr ⟨(), _, modify_eq_ok.mpr rfl, build_eq_ok.mpr ⟨rfl, rfl⟩⟩⟩⟩⟩
  | .value span value, s, hb, hs => by
    let s₁ : State := { s with scopes := s.scopes.pushFunction params }
    unfold loadBody
    refine ⟨_, s.events, bind_eq_ok.mpr ⟨(), s₁, modify_eq_ok.mpr rfl,
      bind_eq_ok.mpr ⟨_, _, loadExpr_place _ s₁ hb,
      bind_eq_ok.mpr ⟨(), _, modify_eq_ok.mpr rfl, bind_eq_ok.mpr ⟨_, _, build_eq_ok.mpr ⟨rfl, rfl⟩,
      bind_eq_ok.mpr ⟨(), _, append_eq_ok.mpr ⟨hs.function, rfl⟩, pure_eq_ok.mpr ⟨rfl, ?_⟩⟩⟩⟩⟩⟩⟩
    rw [FunctionTable.append_eq_extend]
    rfl

theorem loadSequence_place (f : FunctionId) (outer : List String) (own : Locals) :
    ∀ {statements : List Stmt} {s : State},
    Stmt.areBasic functions statements = true → Ready s f (Stmt.lambdasAll statements) →
      ∃ events, (loadSequence ⟨f, false⟩ statements).run s =
        let p := Stmt.placeAll s.names f outer statements (s.spot own)
        .ok p.nodes (s.after f (Node.entries p.nodes) p events)
  | [], s, _, _ => by
    refine ⟨s.events, ?_⟩
    unfold loadSequence
    refine pure_eq_ok.mpr ⟨rfl, ?_⟩
    symm
    exact State.after_nil rfl
  | stmt :: rest, s, hb, hs => by
    simp only [Stmt.areBasic, Bool.and_eq_true] at hb
    obtain ⟨n, events, hn, hstmt⟩ := loadStmt_place f outer own hb.1 hs.left
    generalize hp : stmt.place s.names f outer (s.spot own) = p at hn hstmt
    have hnames : p.functions.map (·.record.name) = stmt.lambdas := hp ▸ stmt.lambdas_place _
    have hready : Ready (s.after f (n.nested ++ [n]) p events) f (Stmt.lambdasAll rest) := hs.after hnames
    have hspot : (s.after f (n.nested ++ [n]) p events).spot p.spot.own = p.spot :=
      State.spot_after (hp ▸ stmt.size_place _)
    obtain ⟨later, hrest⟩ := loadSequence_place f outer p.spot.own hb.2 hready
    rw [hspot] at hrest
    refine ⟨later, ?_⟩
    unfold loadSequence Stmt.placeAll
    rw [hp]
    refine bind_eq_ok.mpr ⟨n, _, hstmt, bind_eq_ok.mpr ⟨(), _, append_after hs.function n,
      bind_eq_ok.mpr ⟨_, _, hrest, pure_eq_ok.mpr ⟨?_, ?_⟩⟩⟩⟩
    · rw [Placed.append, hn]
      rfl
    · rw [State.after_after hs.function]
      simp only [Placed.append, hn]
      rfl

theorem loadBlock_place (f : FunctionId) (outer : List String) (own : Locals) : ∀ {statements : List Stmt} {s : State},
    Stmt.areBasic functions statements = true → Ready s f (Stmt.lambdasAll statements) →
      ∃ events, (loadBlock ⟨f, false⟩ statements).run s =
        let p := Stmt.placeAll s.names f outer statements (s.spot own)
        .ok p.nodes (s.after f (Node.nestedAll p.nodes) p events)
  | [], s, _, _ => by
    refine ⟨s.events, ?_⟩
    unfold loadBlock
    refine pure_eq_ok.mpr ⟨rfl, ?_⟩
    symm
    exact State.after_nil rfl
  | stmt :: rest, s, hb, hs => by
    simp only [Stmt.areBasic, Bool.and_eq_true] at hb
    obtain ⟨n, events, hn, hstmt⟩ := loadStmt_place f outer own hb.1 hs.left
    generalize hp : stmt.place s.names f outer (s.spot own) = p at hn hstmt
    have hnames : p.functions.map (·.record.name) = stmt.lambdas := hp ▸ stmt.lambdas_place _
    let entries := n.nested ++ if n.isDecl then [n] else []
    have hready : Ready (s.after f entries p events) f (Stmt.lambdasAll rest) := hs.after hnames
    have hspot : (s.after f entries p events).spot p.spot.own = p.spot := State.spot_after (hp ▸ stmt.size_place _)
    have happend : (appendDecl ⟨f, false⟩ n).run (s.after f n.nested p events) = .ok ()
      (s.after f entries p events) := by
      unfold appendDecl
      cases hdecl : n.isDecl with
      | true => simpa [entries, hdecl] using append_after hs.function n
      | false => simp [entries, hdecl]
    obtain ⟨later, hrest⟩ := loadBlock_place f outer p.spot.own hb.2 hready
    rw [hspot] at hrest
    refine ⟨later, ?_⟩
    unfold loadBlock Stmt.placeAll
    rw [hp]
    refine bind_eq_ok.mpr ⟨n, _, hstmt,
      bind_eq_ok.mpr ⟨(), _, happend, bind_eq_ok.mpr ⟨_, _, hrest, pure_eq_ok.mpr ⟨?_, ?_⟩⟩⟩⟩
    · rw [Placed.append, hn]
      rfl
    · rw [State.after_after hs.function]
      simp only [Placed.append, hn]
      rfl

end

end

def Program.place (limit : Nat) (program : Program) : Placed := Stmt.placeAll limit 0 [] program ⟨0, 1, .empty, []⟩

def Placed.all (p : Placed) : List Lifted :=
  ⟨⟨0, mainName, [], none, Node.entries p.nodes⟩, p.nodes, [], p.spot.own⟩ :: p.functions

def Placed.table (p : Placed) : FunctionTable := ⟨p.all.map (·.record)⟩

theorem load_place {program : Program} (h : program.isBasic = true) (limit : Nat) :
    ∃ s, (load program).run { names := limit } = .ok (program.place limit).table s := by
  simp only [Program.isBasic, Bool.and_eq_true, decide_eq_true_eq] at h
  obtain ⟨⟨hbasic, hapart⟩, -⟩ := h
  have hready : Ready { names := limit } 0 (Stmt.lambdasAll program) :=
    ⟨Nat.one_pos, List.mem_singleton_self _, hapart⟩
  obtain ⟨events, hrun⟩ := loadSequence_place 0 [] [] hbasic hready
  exact ⟨_, bind_eq_ok.mpr ⟨_, _, hrun, bind_eq_ok.mpr ⟨_, _, get_eq_ok.mpr ⟨rfl, rfl⟩,
    bind_eq_ok.mpr ⟨(), _, modify_eq_ok.mpr rfl, pure_eq_ok.mpr ⟨rfl, rfl⟩⟩⟩⟩⟩

/-! ## Names without `#` -/

section
variable {functions : List String}

mutual

theorem Expr.plainNames_of_isBasic : ∀ {e : Expr}, e.isBasic functions = true → e.PlainNames
  | .int .., _ | .float .., _ | .ident .., _ => trivial
  | .arithmetic _ left _ right, h => by
    simp only [Expr.isBasic, Bool.and_eq_true] at h
    exact ⟨Expr.plainNames_of_isBasic h.1.2, Expr.plainNames_of_isBasic h.2⟩
  | .call _ _ args, h => by
    simp only [Expr.isBasic, Bool.and_eq_true] at h
    exact Expr.allPlainNames_of_areBasic h.2

theorem Expr.allPlainNames_of_areBasic :
    ∀ {es : List Expr}, Expr.areBasic functions es = true → Expr.AllPlainNames es
  | [], _ => trivial
  | e :: rest, h => by
    simp only [Expr.areBasic, Bool.and_eq_true] at h
    exact ⟨Expr.plainNames_of_isBasic h.1, Expr.allPlainNames_of_areBasic h.2⟩

end

mutual

theorem Stmt.plainNames_of_isBasic : ∀ {stmt : Stmt}, stmt.isBasic functions = true →
    (∀ name ∈ stmt.lambdas, '#' ∉ name.toList) → stmt.PlainNames
  | .decl .., h, _ => Expr.plainNames_of_isBasic (Bool.and_eq_true_iff.mp h).1
  | .lambdaDecl _ name _ _ body, h, hnames =>
    ⟨hnames name (List.mem_cons_self ..), Body.plainNames_of_isBasic h fun n hn => hnames n
      (List.mem_cons_of_mem _ hn)⟩
  | .letIn _ decls _ body, h, hnames => by
    simp only [Stmt.isBasic, Bool.and_eq_true] at h
    exact ⟨Stmt.allPlainNames_of_areBasic h.1 fun n hn => hnames n (List.mem_append_left _ hn),
      Stmt.allPlainNames_of_areBasic h.2 fun n hn => hnames n (List.mem_append_right _ hn)⟩
  | .print _ args, h, _ => Expr.allPlainNames_of_areBasic h
  | .ret _ value, h, _ => Expr.plainNames_of_isBasic h
  | .expr value, h, _ => Expr.plainNames_of_isBasic (Bool.and_eq_true_iff.mp h).2

theorem Body.plainNames_of_isBasic : ∀ {body : Body}, body.isBasic functions = true →
    (∀ name ∈ body.lambdas, '#' ∉ name.toList) → body.PlainNames
  | .block .., h, hnames => Stmt.allPlainNames_of_areBasic h hnames
  | .value .., h, _ => Expr.plainNames_of_isBasic h

theorem Stmt.allPlainNames_of_areBasic : ∀ {statements : List Stmt}, Stmt.areBasic functions statements = true →
    (∀ name ∈ Stmt.lambdasAll statements, '#' ∉ name.toList) → Stmt.AllPlainNames statements
  | [], _, _ => trivial
  | stmt :: rest, h, hnames => by
    simp only [Stmt.areBasic, Bool.and_eq_true] at h
    exact ⟨Stmt.plainNames_of_isBasic h.1 fun n hn => hnames n (List.mem_append_left _ hn),
      Stmt.allPlainNames_of_areBasic h.2 fun n hn => hnames n (List.mem_append_right _ hn)⟩

end

theorem Placed.separated {program : Program} (h : program.isBasic = true) (limit : Nat) :
    (program.place limit).table.Separated := by
  obtain ⟨s, hload⟩ := load_place h limit
  simp only [Program.isBasic, Bool.and_eq_true, decide_eq_true_eq, List.all_eq_true] at h
  exact separated_of_load (Stmt.allPlainNames_of_areBasic h.1.1 h.2) hload

end

end Bies
