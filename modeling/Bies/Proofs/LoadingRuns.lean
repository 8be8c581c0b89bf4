import Bies.FunctionTable.OfProgram
import Bies.Proofs.Run
import Bies.Proofs.TableGrowth
import Std.Data.String.ToNat

/-!
# Runs of the loader

What loading does when it comes to a result, without scopes and events: `Loaded f ps s ns s'` says that in the
function `f` the pieces `ps` of a program become the nodes `ns`, and the ledger `s` becomes `s'`. A node is
built around the nodes of its parts. A statement of a function goes to its sequence, and so does a declaration
inside a block. Lambdas and declared functions fill functions of their own. What loading keeps is proved by
induction over these runs.
-/

namespace Bies

def Node.ofNumber (tag : Tag) : Number → Node
  | .int n => .int tag n
  | .float x => .float tag x

namespace Loading

/-! ## Steps -/

section
variable {s s' : State} {span : Span} {f g : FunctionId} {n : Node} {name : String} {params : List String}

theorem build_eq_ok {make : Tag → Node} : (build span make).run s = .ok n s' ↔
    n = make ⟨s.nextId, span⟩ ∧ s' = { s with nextId := s.nextId + 1 } := by
  simp only [build, bind_eq_ok, freshId, modifyGet_eq_ok, pure_eq_ok]
  constructor
  · rintro ⟨_, _, ⟨⟩, rfl, rfl⟩
    exact ⟨rfl, rfl⟩
  · rintro ⟨rfl, rfl⟩
    exact ⟨_, _, rfl, rfl, rfl⟩

theorem exists_buildArithmetic (s : State) (span : Span) (left : Node) (op : String) (right : Node) :
    ∃ n, (buildArithmetic span left op right).run s = .ok n { s with nextId := s.nextId + 1 } ∧
      let known := do (← knownNumber? s.scopes s.names left).combine? op (← knownNumber? s.scopes s.names right)
      (∃ k, known = some k ∧ n = Node.ofNumber ⟨s.nextId, span⟩ k) ∨
        known = none ∧ n = .binary ⟨s.nextId, span⟩ left op right := by
  have hrun (x : State → Loading Node) : (get >>= x).run s = (x s).run s := rfl
  unfold buildArithmetic
  rw [hrun]
  dsimp only
  split
  next k hk => exact ⟨_, build_eq_ok.mpr ⟨rfl, rfl⟩, .inl ⟨_, hk, rfl⟩⟩
  next x hx => exact ⟨_, build_eq_ok.mpr ⟨rfl, rfl⟩, .inl ⟨_, hx, rfl⟩⟩
  next hk => exact ⟨_, build_eq_ok.mpr ⟨rfl, rfl⟩, .inr ⟨hk, rfl⟩⟩

theorem append_eq_ok {u : Unit} : (append f n).run s = .ok u s' ↔
    f < s.table.size ∧ s' = { s with table := s.table.append f n } := by
  simp only [append, bind_eq_ok, get_eq_ok]
  constructor
  · rintro ⟨_, _, ⟨rfl, rfl⟩, h⟩
    split at h
    next hf => exact ⟨hf, (modify_eq_ok.mp h).symm⟩
    next =>
      obtain ⟨_, _, hthrow, _⟩ := bind_eq_ok.mp h
      exact absurd hthrow throw_ne_ok
  · rintro ⟨hf, rfl⟩
    refine ⟨s, s, ⟨rfl, rfl⟩, ?_⟩
    rw [if_pos hf]
    rfl

theorem declareFunction_inv (h : (declareFunction f name params span).run s = .ok g s') :
    name ≠ mainName ∧ g = (s.table.declare name params f).1 ∧
      s' = { s with table := (s.table.declare name params f).2 } := by
  unfold declareFunction at h
  split at h
  · obtain ⟨_, _, hthrow, _⟩ := bind_eq_ok.mp h
    exact absurd hthrow throw_ne_ok
  next hmain =>
    obtain ⟨⟩ := modifyGet_eq_ok.mp h
    exact ⟨hmain, rfl, rfl⟩

end

/-! ## Names of functions -/

theorem getElem?_mono {names all : List String} {f : FunctionId} {name : String} (h : names <+: all)
    (hf : names[f]? = some name) : all[f]? = some name := by
  obtain ⟨more, rfl⟩ := h
  rw [List.getElem?_append_left (List.getElem?_eq_some_iff.mp hf).1, hf]

def Named (next : NodeId) (name : String) : Prop := '#' ∉ name.toList ∨ ∃ k < next, name = s!"lambda#{k}"

theorem Named.mono {next next' : NodeId} {name : String} (h : Named next name) (hle : next ≤ next') :
    Named next' name := by
  rcases h with h | ⟨k, hk, h⟩
  · exact Or.inl h
  · exact Or.inr ⟨k, Nat.lt_of_lt_of_le hk hle, h⟩

theorem lambdaName_injective {i k : NodeId} (h : s!"lambda#{i}" = s!"lambda#{k}") : i = k :=
  Nat.repr_injective ((String.append_right_inj _).mp h)

theorem hash_mem_lambdaName (k : NodeId) : '#' ∈ (s!"lambda#{k}").toList := by
  simp [toString]

theorem Named.ne_lambdaName {next : NodeId} {name : String} (h : Named next name) : name ≠ s!"lambda#{next}" := by
  rintro rfl
  rcases h with hplain | ⟨k, hk, hname⟩
  · exact hplain (hash_mem_lambdaName _)
  · exact Nat.lt_irrefl _ (lambdaName_injective hname ▸ hk)

/-! ## Pieces of a program -/

structure Made where
  function : FunctionId
  node : Node

structure Ledger where
  nextId : NodeId := 0
  table : FunctionTable := .initial
  made : List Made := []

namespace Ledger

variable (s : Ledger)

def number : Ledger := { s with nextId := s.nextId + 1 }

def make (f : FunctionId) (n : Node) : Ledger := { s with made := ⟨f, n⟩ :: s.made }

def append (f : FunctionId) (n : Node) : Ledger := { s with table := s.table.append f n }

def clear (f : FunctionId) : Ledger := { s with table := s.table.clear f }

def declare (name : String) (params : List String) (parent : FunctionId) : Ledger :=
  { s with table := (s.table.declare name params parent).2 }

end Ledger

inductive Piece
  | expr (e : Expr)
  | stmt (stmt : Stmt)
  /-- A statement of a block. -/
  | inner (stmt : Stmt)
  /-- A statement of a function. -/
  | entry (stmt : Stmt)
  /-- The block that is the body of a function. -/
  | frame (span : Span) (statements : List Stmt)

end Loading

def Body.piece : Body → Loading.Piece
  | .block span statements => .frame span statements
  | .value span e => .entry (.ret span e)

namespace Loading

/-- The node with the number `id` is built for the piece, around the nodes of its parts. Only the result is left
of arithmetic that has been done. -/
inductive Builds (id : NodeId) : Piece → List Piece → List Node → Node → Prop
  | int {span k} : Builds id (.expr (.int span k)) [] [] (.int ⟨id, span⟩ k)
  | float {span x} : Builds id (.expr (.float span x)) [] [] (.float ⟨id, span⟩ x)
  | str {span text} : Builds id (.expr (.str span text)) [] [] (.str ⟨id, span⟩ text)
  | ident {span name} : Builds id (.expr (.ident span name)) [] [] (.ident ⟨id, span⟩ name)
  | known {span left right op l r} (k : Number) :
    Builds id (.expr (.arithmetic span left op right)) [.expr left, .expr right] [l, r] (.ofNumber ⟨id, span⟩ k)
  | arithmetic {span left right op l r} :
    Builds id (.expr (.arithmetic span left op right)) [.expr left, .expr right] [l, r] (.binary ⟨id, span⟩ l op r)
  | comparison {span left right op l r} :
    Builds id (.expr (.comparison span left op right)) [.expr left, .expr right] [l, r]
      (.comparison ⟨id, span⟩ l op r)
  | call {span name args ns} :
    Builds id (.expr (.call span name args)) (args.map .expr) ns (.call ⟨id, span⟩ name ns)
  | access {span name index i} :
    Builds id (.expr (.access span name index)) [.expr index] [i] (.access ⟨id, span⟩ name i)
  | list {span items ns} :
    Builds id (.expr (.list span items)) (items.map .expr) ns (.list ⟨id, span⟩ ns)
  | decl {span constant name value v} :
    Builds id (.stmt (.decl span constant name value)) [.expr value] [v] (.decl ⟨id, span⟩ constant name v)
  | letIn {span bodySpan decls body ns b} :
    Builds id (.stmt (.letIn span decls bodySpan body)) (decls.map .inner ++ [.stmt (.block bodySpan body)]) (ns ++ [b])
      (.letIn ⟨id, span⟩ ns b)
  | ifThen {span bodySpan test body t b} :
    Builds id (.stmt (.ifThen span test bodySpan body)) [.expr test, .stmt (.block bodySpan body)] [t, b]
      (.ifThen ⟨id, span⟩ t b)
  | ifElse {span bodySpan otherSpan test body other t b o} :
    Builds id (.stmt (.ifElse span test bodySpan body otherSpan other))
      [.expr test, .stmt (.block bodySpan body), .stmt (.block otherSpan other)] [t, b, o] (.ifElse ⟨id, span⟩ t b o)
  | ifElseIf {span bodySpan test body link t b l} :
    Builds id (.stmt (.ifElseIf span test bodySpan body link)) [.expr test, .stmt (.block bodySpan body),
      .stmt link] [t, b, l]
      (.ifElseIf ⟨id, span⟩ t b l)
  | block {span statements ns} :
    Builds id (.stmt (.block span statements)) (statements.map .inner) ns (.block ⟨id, span⟩ ns)
  | ret {span value v} : Builds id (.stmt (.ret span value)) [.expr value] [v]
    (.ret ⟨id, span⟩ v)
  | print {span args ns} :
    Builds id (.stmt (.print span args)) (args.map .expr) ns (.print ⟨id, span⟩ ns)
  | frame {span statements ns} :
    Builds id (.frame span statements) (statements.map .entry) ns (.block ⟨id, span⟩ ns)

inductive Loaded : FunctionId → List Piece → Ledger → List Node → Ledger → Prop
  | nil {f s} : Loaded f [] s [] s
  | cons {f p ps s s₁ s₂ n ns}
    (hn : Loaded f [p] s [n] s₁) (hns : Loaded f ps s₁ ns s₂) : Loaded f (p :: ps) s (n :: ns) s₂
  | build {f p ps s s₁ n ns}
    (hb : Builds s₁.nextId p ps ns n) (hns : Loaded f ps s ns s₁) : Loaded f [p] s [n] (s₁.number.make f n)
  | expr {f e s s₁ n} (hn : Loaded f [.expr e] s [n] s₁) :
    Loaded f [.stmt (.expr e)] s [n] s₁
  | inner {f stmt s s₁ n} (hd : n.isDecl = false)
    (hn : Loaded f [.stmt stmt] s [n] s₁) :
    Loaded f [.inner stmt] s [n] s₁
  | declared {f stmt s s₁ n} (hd : n.isDecl = true)
    (hn : Loaded f [.stmt stmt] s [n] s₁) : Loaded f [.inner stmt] s [n] (s₁.append f n)
  | entry {f stmt s s₁ n} (hn : Loaded f [.stmt stmt] s [n] s₁) :
    Loaded f [.entry stmt] s [n] (s₁.append f n)
  | lambda {f g span params body s s₁ b}
    (hg : g = (s.table.declare s!"lambda#{s.nextId}" params f).1)
    (hb : Loaded g [body.piece] (s.number.declare s!"lambda#{s.nextId}" params f) [b] s₁) :
    Loaded f [.expr (.lambda span params body)] s [.lambda ⟨s.nextId, span⟩ params b g]
      (s₁.make f (.lambda ⟨s.nextId, span⟩ params b g))
  | lambdaDecl {f g span lambdaSpan name params body s s₁ b} (hname : name ≠ mainName)
    (hg : g = (s.table.declare name params f).1)
    (hb : Loaded g [body.piece] ((s.number.declare name params f).clear g) [b] s₁) :
    Loaded f [.stmt (.lambdaDecl span name lambdaSpan params body)] s [.funDecl ⟨s.nextId, span⟩ name params g]
      (s₁.make f (.funDecl ⟨s.nextId, span⟩ name params g))
  | funDecl {f g span name params body s s₁ b}
    (hname : name ≠ mainName) (hg : g = (s.table.declare name params f).1)
    (hb : Loaded g [body.piece] (s.declare name params f) [b] s₁) :
    Loaded f [.stmt (.funDecl span name params body)] s [.funDecl ⟨s₁.nextId, span⟩ name params g]
      (s₁.number.make f (.funDecl ⟨s₁.nextId, span⟩ name params g))

theorem Loaded.append {f : FunctionId} {ps qs : List Piece} {s s₁ s₂ : Ledger} {ns ms : List Node}
    (h : Loaded f ps s ns s₁) (h' : Loaded f qs s₁ ms s₂) : Loaded f (ps ++ qs) s (ns ++ ms) s₂ := by
  induction h with
  | nil => exact h'
  | cons hn _ _ ih => exact .cons hn (ih h')
  | build hb hns => exact .cons (.build hb hns) h'
  | expr hn => exact .cons (.expr hn) h'
  | inner hd hn => exact .cons (.inner hd hn) h'
  | declared hd hn => exact .cons (.declared hd hn) h'
  | entry hn => exact .cons (.entry hn) h'
  | lambda hg hb => exact .cons (.lambda hg hb) h'
  | lambdaDecl hname hg hb => exact .cons (.lambdaDecl hname hg hb) h'
  | funDecl hname hg hb => exact .cons (.funDecl hname hg hb) h'

/-! ## Steps of loading -/

def State.ledger (s : State) (made : List Made) : Ledger := ⟨s.nextId, s.table, made⟩

/-- When the pieces `qs` have become the nodes `ms`, then `x` makes it the pieces `ps` and the nodes `post`. -/
def Runs {α : Type} (f : FunctionId) (qs : List Piece) (ms : List Node) (x : Loading α) (ps : List Piece)
    (post : α → List Node) : Prop :=
  ∀ s₀ s a s' made, Loaded f qs s₀ ms (s.ledger made) → x.run s = .ok a s' → ∃ made', Loaded f ps s₀
    (post a) (s'.ledger made')

namespace Runs

variable {α β : Type} {f : FunctionId} {ps qs rs : List Piece} {ms : List Node} {x : Loading α}
  {k : α → Loading β}
  {mid : α → List Node} {post : β → List Node} {span : Span} {p : Piece} {stmt : Stmt} {n : Node}

theorem bind (hx : Runs f qs ms x rs mid) (hk : ∀ a, Runs f rs (mid a) (k a) ps post) :
    Runs f qs ms (x >>= k) ps post := by
  intro s₀ s b s' made h hrun
  obtain ⟨a, s₁, h₁, h₂⟩ := bind_eq_ok.mp hrun
  obtain ⟨made₁, hmid⟩ := hx s₀ s a s₁ made h h₁
  exact hk a s₀ s₁ b s' made₁ hmid h₂

theorem ret (b : β) (hb : ms = post b) : Runs f ps ms (pure b) ps post := by
  intro s₀ s b' s' made h hrun
  obtain ⟨rfl, rfl⟩ := pure_eq_ok.mp hrun
  exact ⟨made, hb ▸ h⟩

theorem fail (e : CompileError) : Runs f qs ms (throw e) ps mid := fun _ _ _ _ _ _ h => absurd h throw_ne_ok

theorem after (h : Runs f [] [] x ps mid) : Runs f qs ms x (qs ++ ps) fun a => ms ++ mid a := by
  intro s₀ s a s' made hqs hrun
  obtain ⟨made', hps⟩ := h (s.ledger made) s a s' made .nil hrun
  exact ⟨made', hqs.append hps⟩

theorem aside {change : State → State} (ht : ∀ s, (change s).table = s.table := by exact fun _ => rfl)
    (hn : ∀ s, (change s).nextId = s.nextId := by exact fun _ => rfl) :
    Runs f ps ms (modify change) ps fun _ => ms := by
  intro s₀ s a s' made h hrun
  obtain rfl := modify_eq_ok.mp hrun
  refine ⟨made, ?_⟩
  rw [State.ledger, ht, hn]
  exact h

theorem build {make : Tag → Node} (hb : ∀ id, Builds id p ps ms (make ⟨id, span⟩)) :
    Runs f ps ms (Loading.build span make) [p] fun n => [n] := by
  intro s₀ s n s' made h hrun
  obtain ⟨rfl, rfl⟩ := build_eq_ok.mp hrun
  exact ⟨_, .build (hb s.nextId) h⟩

theorem buildArithmetic (left right : Expr) (l : Node) (op : String) (r : Node) :
    Runs f [.expr left, .expr right] [l, r] (Loading.buildArithmetic span l op r)
      [.expr (.arithmetic span left op right)]
      fun n => [n] := by
  intro s₀ s n s' made h hrun
  obtain ⟨m, hm, hmade⟩ := exists_buildArithmetic s span l op r
  rw [hm] at hrun
  obtain ⟨rfl, rfl⟩ := EStateM.Result.ok.inj hrun
  rcases hmade with ⟨k, -, rfl⟩ | ⟨-, rfl⟩
  · exact ⟨_, .build (.known k) h⟩
  · exact ⟨_, .build .arithmetic h⟩

theorem append : Runs f [.stmt stmt] [n] (Loading.append f n) [.entry stmt] fun _ => [n] := by
  intro s₀ s a s' made h hrun
  obtain ⟨-, rfl⟩ := append_eq_ok.mp hrun
  exact ⟨made, .entry h⟩

theorem appendDecl : Runs f [.stmt stmt] [n] (Loading.appendDecl ⟨f, false⟩ n) [.inner stmt] fun _ => [n] := by
  intro s₀ s a s' made h hrun
  unfold Loading.appendDecl at hrun
  split at hrun
  next hd =>
    obtain ⟨-, rfl⟩ := append_eq_ok.mp hrun
    exact ⟨made, .declared (Bool.and_eq_true_iff.mp hd).1 h⟩
  next hd =>
    obtain ⟨-, rfl⟩ := pure_eq_ok.mp hrun
    exact ⟨made, .inner (by simpa using hd) h⟩

theorem inBlock {load : Loading (List Node)} {statements : List Stmt}
    (h : Runs f [] [] load (statements.map .inner) id) :
    Runs f [] [] (Loading.inBlock span load) [.stmt (.block span statements)] fun n => [n] :=
  .bind .aside fun _ => .bind h fun _ => .bind .aside fun _ => .build fun _ => .block

end Runs

mutual

theorem loadExpr_runs (here : Place) : ∀ e : Expr, Runs here.function [] [] (loadExpr here e) [.expr e] fun n => [n]
  | .int .. => by
    unfold loadExpr
    exact .build fun _ => .int
  | .float .. => by
    unfold loadExpr
    exact .build fun _ => .float
  | .str .. => by
    unfold loadExpr
    exact .build fun _ => .str
  | .ident .. => by
    unfold loadExpr
    exact .build fun _ => .ident
  | .arithmetic span left op right => by
    unfold loadExpr
    exact .bind (loadExpr_runs here left) fun l => .bind (loadExpr_runs here right).after fun r =>
      .buildArithmetic left right l op r
  | .comparison span left op right => by
    unfold loadExpr
    exact .bind (loadExpr_runs here left) fun _ => .bind (loadExpr_runs here right).after
      fun _ => .build fun _ => .comparison
  | .call span name args => by
    unfold loadExpr
    exact .bind (loadExprs_runs here args) fun _ => .build fun _ => .call
  | .access span name index => by
    unfold loadExpr
    exact .bind (loadExpr_runs here index) fun _ => .build fun _ => .access
  | .list span items => by
    unfold loadExpr
    exact .bind (loadItems_runs here items) fun _ => .build fun _ => .list
  | .lambda span params body => by
    intro s₀ s n s' made h hrun
    cases h
    unfold loadExpr at hrun
    obtain ⟨i, s₁, hfresh, hrun⟩ := bind_eq_ok.mp hrun
    obtain ⟨⟩ := modifyGet_eq_ok.mp hfresh
    obtain ⟨g, s₂, hdeclare, hrun⟩ := bind_eq_ok.mp hrun
    obtain ⟨-, rfl, rfl⟩ := declareFunction_inv hdeclare
    obtain ⟨_, s₃, hnote, hrun⟩ := bind_eq_ok.mp hrun
    obtain rfl := modify_eq_ok.mp hnote
    obtain ⟨b, s₄, hbody, hret⟩ := bind_eq_ok.mp hrun
    obtain ⟨rfl, rfl⟩ := pure_eq_ok.mp hret
    obtain ⟨made', hb⟩ := loadBody_runs _ params body _ _ b s₄ made .nil hbody
    exact ⟨_, .lambda (s := s.ledger made) rfl hb⟩
  | .malformed .. => by
    unfold loadExpr
    exact .fail _

theorem loadExprs_runs (here : Place) :
    ∀ es : List Expr, Runs here.function [] [] (loadExprs here es) (es.map .expr) id
  | [] => by
    unfold loadExprs
    exact .ret [] rfl
  | e :: rest => by
    unfold loadExprs
    exact .bind (loadExpr_runs here e) fun n => .bind (loadExprs_runs here rest).after fun ns => .ret (n :: ns) rfl

theorem loadItems_runs (here : Place) :
    ∀ es : List Expr, Runs here.function [] [] (loadItems here es) (es.map .expr) id
  | [] => by
    unfold loadItems
    exact .ret [] rfl
  | e :: rest => by
    unfold loadItems
    refine .bind (loadExpr_runs here e) fun n => ?_
    split
    · exact .bind (loadItems_runs here rest).after fun ns => .ret (n :: ns) rfl
    · exact .bind (.fail _ : Runs _ _ _ _ [.expr e] fun _ => [n]) fun _ =>
        .bind (loadItems_runs here rest).after fun ns => .ret (n :: ns) rfl

theorem loadBody_runs (f : FunctionId) (params : List String) : ∀ body : Body,
    Runs f [] [] (loadBody f params body) [body.piece] fun n => [n]
  | .block span statements => by
    unfold loadBody
    exact .bind .aside fun _ => .bind (loadSequence_runs f statements) fun _ => .bind .aside
      fun _ => .build fun _ => .frame
  | .value span value => by
    unfold loadBody
    exact .bind .aside fun _ => .bind (loadExpr_runs ⟨f, false⟩ value) fun _ => .bind .aside fun _ =>
      .bind (.build fun _ => .ret) fun n => .bind .append fun _ => .ret n rfl

theorem loadStmt_runs (f : FunctionId) :
    ∀ stmt : Stmt, Runs f [] [] (loadStmt ⟨f, false⟩ stmt) [.stmt stmt] fun n => [n]
  | .decl span constant name value => by
    unfold loadStmt
    exact .bind (loadExpr_runs ⟨f, true⟩ value) fun _ => .bind (.build fun _ => .decl) fun n => .bind
      .aside fun _ => .ret n rfl
  | .lambdaDecl span name lambdaSpan params body => by
    intro s₀ s n s' made h hrun
    cases h
    unfold loadStmt at hrun
    obtain ⟨i, s₁, hfresh, hrun⟩ := bind_eq_ok.mp hrun
    obtain ⟨⟩ := modifyGet_eq_ok.mp hfresh
    obtain ⟨g, s₂, hdeclare, hrun⟩ := bind_eq_ok.mp hrun
    obtain ⟨hname, rfl, rfl⟩ := declareFunction_inv hdeclare
    obtain ⟨_, s₃, hclear, hrun⟩ := bind_eq_ok.mp hrun
    obtain rfl := modify_eq_ok.mp hclear
    obtain ⟨_, s₄, hnote, hrun⟩ := bind_eq_ok.mp hrun
    obtain rfl := modify_eq_ok.mp hnote
    obtain ⟨b, s₅, hbody, hrun⟩ := bind_eq_ok.mp hrun
    obtain ⟨_, s₆, hlet, hret⟩ := bind_eq_ok.mp hrun
    obtain rfl := modify_eq_ok.mp hlet
    obtain ⟨rfl, rfl⟩ := pure_eq_ok.mp hret
    obtain ⟨made', hb⟩ := loadBody_runs _ params body _ _ b s₅ made .nil hbody
    exact ⟨_, .lambdaDecl (s := s.ledger made) hname rfl hb⟩
  | .funDecl span name params body => by
    intro s₀ s n s' made h hrun
    cases h
    unfold loadStmt at hrun
    obtain ⟨g, s₁, hdeclare, hrun⟩ := bind_eq_ok.mp hrun
    obtain ⟨hname, rfl, rfl⟩ := declareFunction_inv hdeclare
    obtain ⟨_, s₂, hnote, hrun⟩ := bind_eq_ok.mp hrun
    obtain rfl := modify_eq_ok.mp hnote
    obtain ⟨b, s₃, hbody, hrun⟩ := bind_eq_ok.mp hrun
    obtain ⟨_, s₄, hbuild, hrun⟩ := bind_eq_ok.mp hrun
    obtain ⟨rfl, rfl⟩ := build_eq_ok.mp hbuild
    obtain ⟨_, s₅, hlet, hret⟩ := bind_eq_ok.mp hrun
    obtain rfl := modify_eq_ok.mp hlet
    obtain ⟨rfl, rfl⟩ := pure_eq_ok.mp hret
    obtain ⟨made', hb⟩ := loadBody_runs _ params body _ _ b s₃ made .nil hbody
    exact ⟨_, .funDecl (s := s.ledger made) hname rfl hb⟩
  | .letIn span decls bodySpan body => by
    have hbody : Runs f [] [] (do
        let statements ← loadBlock ⟨f, false⟩ body
        closeScope
        build bodySpan (.block · statements)) [.stmt (.block bodySpan body)] fun n => [n] :=
      .bind (loadBlock_runs f body) fun _ => .bind .aside fun _ => .build fun _ => .block
    have hbuild (ns : List Node) (b : Node) : Runs f (decls.map .inner ++ [.stmt (.block bodySpan body)]) (ns ++ [b])
        (build span (.letIn · ns b)) [.stmt (.letIn span decls bodySpan body)] fun n => [n] := .build fun _ => .letIn
    have h := Runs.bind (loadBlock_runs f decls) fun ns => .bind hbody.after (hbuild ns)
    unfold loadStmt
    exact .bind .aside fun _ => by simpa only [bind_assoc] using h
  | .ifThen span test bodySpan body => by
    unfold loadStmt
    exact .bind (loadExpr_runs ⟨f, false⟩ test) fun _ => .bind (Runs.inBlock (loadBlock_runs f body)).after fun _ =>
      .build fun _ => .ifThen
  | .ifElse span test bodySpan body otherSpan other => by
    unfold loadStmt
    exact .bind (loadExpr_runs ⟨f, false⟩ test) fun _ => .bind (Runs.inBlock (loadBlock_runs f body)).after fun _ =>
      .bind (Runs.inBlock (loadBlock_runs f other)).after fun _ => .build fun _ => .ifElse
  | .ifElseIf span test bodySpan body link => by
    unfold loadStmt
    exact .bind (loadExpr_runs ⟨f, false⟩ test) fun _ => .bind (Runs.inBlock (loadBlock_runs f body)).after fun _ =>
      .bind (loadStmt_runs f link).after fun _ => .build fun _ => .ifElseIf
  | .block span statements => by
    unfold loadStmt
    exact .inBlock (loadBlock_runs f statements)
  | .ret span value => by
    unfold loadStmt
    exact .bind (loadExpr_runs ⟨f, false⟩ value) fun _ => .build fun _ => .ret
  | .print span args => by
    unfold loadStmt
    exact .bind (loadExprs_runs ⟨f, false⟩ args) fun _ => .build fun _ => .print
  | .expr value => by
    unfold loadStmt
    intro s₀ s n s' made h hrun
    obtain ⟨made', hn⟩ := loadExpr_runs ⟨f, false⟩ value s₀ s n s' made h hrun
    exact ⟨made', .expr hn⟩
  | .malformed .. => by
    unfold loadStmt
    exact .fail _

theorem loadSequence_runs (f : FunctionId) : ∀ statements : List Stmt,
    Runs f [] [] (loadSequence ⟨f, false⟩ statements) (statements.map .entry) id
  | [] => by
    unfold loadSequence
    exact .ret [] rfl
  | stmt :: rest => by
    unfold loadSequence
    exact .bind (loadStmt_runs f stmt) fun n => .bind .append fun _ => .bind (loadSequence_runs f rest).after fun ns =>
      .ret (n :: ns) rfl

theorem loadBlock_runs (f : FunctionId) : ∀ statements : List Stmt,
    Runs f [] [] (loadBlock ⟨f, false⟩ statements) (statements.map .inner) id
  | [] => by
    unfold loadBlock
    exact .ret [] rfl
  | stmt :: rest => by
    unfold loadBlock
    exact .bind (loadStmt_runs f stmt) fun n => .bind .appendDecl fun _ => .bind (loadBlock_runs f rest).after fun ns =>
      .ret (n :: ns) rfl

end

/-! ## Whole programs -/

theorem exists_of_load {program : Program} {table : FunctionTable} {s s' : State}
    (h : (load program).run s = .ok table s') :
    ∃ nodes s₁, (loadSequence ⟨0, false⟩ program).run s = .ok nodes s₁ ∧ s₁.table = table := by
  obtain ⟨nodes, s₁, hload, hrun⟩ := bind_eq_ok.mp h
  obtain ⟨_, _, hget, hrun⟩ := bind_eq_ok.mp hrun
  obtain ⟨rfl, rfl⟩ := get_eq_ok.mp hget
  obtain ⟨_, _, _, hret⟩ := bind_eq_ok.mp hrun
  exact ⟨nodes, _, hload, (pure_eq_ok.mp hret).1⟩

theorem loaded_of_loadSequence {program : Program} {nodes : List Node} {s s' : State} (hn : s.nextId = 0)
    (ht : s.table = .initial) (h : (loadSequence ⟨0, false⟩ program).run s = .ok nodes s') :
    ∃ s₁, Loaded 0 (program.map .entry) {} nodes s₁ ∧ s₁.table = s'.table := by
  have hstart : s.ledger [] = {} := by rw [State.ledger, hn, ht]
  obtain ⟨made, hnodes⟩ := loadSequence_runs 0 program _ s nodes s' [] .nil h
  exact ⟨_, hstart ▸ hnodes, rfl⟩

end Loading

theorem FunctionTable.exists_of_ofProgram {program : Program} {table : FunctionTable}
    (h : (FunctionTable.ofProgram program).result = .ok table) :
    ∃ nodes s, (Loading.loadSequence ⟨0, false⟩ program).run {} = .ok nodes s ∧ s.table = table := by
  obtain ⟨s', hrun⟩ := Outcome.ofRun_eq_ok h
  exact Loading.exists_of_load hrun

theorem FunctionTable.loaded_of_ofProgram {program : Program} {table : FunctionTable}
    (h : (FunctionTable.ofProgram program).result = .ok table) :
    ∃ nodes s, Loading.Loaded 0 (program.map .entry) {} nodes s ∧ s.table = table := by
  obtain ⟨nodes, s, hload, rfl⟩ := exists_of_ofProgram h
  exact ⟨nodes, Loading.loaded_of_loadSequence rfl rfl hload⟩

namespace Loading

/-! ## What stays -/

theorem Builds.id_eq {id : NodeId} {p : Piece} {ps : List Piece} {ns : List Node} {n : Node} (h : Builds id p ps ns n) :
    n.id = id := by
  cases h with
  | known k => cases k <;> rfl
  | _ => rfl

structure Ledger.Grows (s s' : Ledger) : Prop where
  nextId : s.nextId ≤ s'.nextId
  names : s.table.names <+: s'.table.names
  numbered : s.table.Numbered → s'.table.Numbered
  made : ∀ m ∈ s'.made, m ∈ s.made ∨ s.nextId ≤ m.node.id
  holds : ∀ {f n}, s'.table.Holds f n → s.table.Holds f n ∨ s.nextId ≤ n.id

namespace Ledger.Grows

variable {s s₁ s₂ : Ledger} {f : FunctionId} {n : Node}

theorem refl (s : Ledger) : s.Grows s := ⟨Nat.le_refl _, List.prefix_rfl, id, fun _ => .inl, .inl⟩

theorem trans (h : s.Grows s₁) (h' : s₁.Grows s₂) : s.Grows s₂ where
  nextId := Nat.le_trans h.nextId h'.nextId
  names := h.names.trans h'.names
  numbered := h'.numbered ∘ h.numbered
  made m hm := (h'.made m hm).elim (h.made m) fun hle => .inr (Nat.le_trans h.nextId hle)
  holds hn := (h'.holds hn).elim h.holds fun hle => .inr (Nat.le_trans h.nextId hle)

theorem number (h : s.Grows s₁) : s.Grows s₁.number :=
  ⟨Nat.le_succ_of_le h.nextId, h.names, h.numbered, h.made, h.holds⟩

theorem make (h : s.Grows s₁) (hn : s.nextId ≤ n.id) : s.Grows (s₁.make f n) where
  nextId := h.nextId
  names := h.names
  numbered := h.numbered
  made m hm := by
    rcases List.mem_cons.mp hm with rfl | hm
    · exact .inr hn
    · exact h.made m hm
  holds := h.holds

theorem append (h : s.Grows s₁) (hn : s.nextId ≤ n.id) : s.Grows (s₁.append f n) where
  nextId := h.nextId
  names := (FunctionTable.names_append : (s₁.table.append f n).names = _) ▸ h.names
  numbered hs := (h.numbered hs).append
  made := h.made
  holds he := by
    rcases FunctionTable.holds_append he with he | ⟨-, rfl⟩
    · exact h.holds he
    · exact .inr hn

theorem clear (h : s.Grows s₁) (f : FunctionId) : s.Grows (s₁.clear f) where
  nextId := h.nextId
  names := (FunctionTable.names_clear : (s₁.table.clear f).names = _) ▸ h.names
  numbered hs := (h.numbered hs).clear
  made := h.made
  holds he := h.holds (FunctionTable.holds_clear he)

theorem declare (h : s.Grows s₁) (name : String) (params : List String) (f : FunctionId) :
    s.Grows (s₁.declare name params f) where
  nextId := h.nextId
  names := h.names.trans FunctionTable.names_prefix_declare
  numbered hs := (h.numbered hs).declare
  made := h.made
  holds he := h.holds (FunctionTable.holds_declare he)

theorem size (h : s.Grows s₁) : s.table.size ≤ s₁.table.size := by
  simpa [FunctionTable.names, FunctionTable.size] using h.names.length_le

end Ledger.Grows

theorem Loaded.grows {f : FunctionId} {ps : List Piece} {s s' : Ledger} {ns : List Node} (h : Loaded f ps s ns s') :
    s.Grows s' ∧ ∀ n ∈ ns, s.nextId ≤ n.id := by
  induction h with
  | nil => exact ⟨.refl _, by simp⟩
  | cons _ _ ih ihs =>
    refine ⟨ih.1.trans ihs.1, List.forall_mem_cons.mpr ⟨ih.2 _ List.mem_cons_self, fun n hn => ?_⟩⟩
    exact Nat.le_trans ih.1.nextId (ihs.2 n hn)
  | build hb _ ih =>
    have hn := hb.id_eq ▸ ih.1.nextId
    exact ⟨ih.1.number.make hn, List.forall_mem_singleton.mpr hn⟩
  | expr _ ih | inner _ _ ih => exact ih
  | declared _ _ ih | entry _ ih => exact ⟨ih.1.append (ih.2 _ List.mem_cons_self), ih.2⟩
  | lambda _ _ ih =>
    have hs := ((Ledger.Grows.refl _).number.declare _ _ _).trans ih.1
    exact ⟨hs.make (Nat.le_refl _), List.forall_mem_singleton.mpr (Nat.le_refl _)⟩
  | lambdaDecl _ _ _ ih =>
    have hs := (((Ledger.Grows.refl _).number.declare _ _ _).clear _).trans ih.1
    exact ⟨hs.make (Nat.le_refl _), List.forall_mem_singleton.mpr (Nat.le_refl _)⟩
  | funDecl _ _ _ ih =>
    have hs := ((Ledger.Grows.refl _).declare _ _ _).trans ih.1
    exact ⟨hs.number.make hs.nextId, List.forall_mem_singleton.mpr hs.nextId⟩

end Loading

end Bies
