import Bies.FunctionTable.OfProgram
import Bies.Proofs.Evaluation
import Bies.Proofs.PlainLowering
import Bies.Proofs.Sharing

/-!
# Loading a numeric program

What each step of loading does to a numeric program, which has no function but `main`. Every statement
becomes one node of the sequence of `main`, and the declarations inside it come before it. Of arithmetic
on known numbers only the result is left: `Expr.folds` lists the names for which a number is put.
-/

namespace Bies

open Loading

/-! ## Known numbers -/

/-- The number that an expression is known to be when it is loaded, if `limit` names are followed. -/
def Expr.known? (limit : Nat) (scopes : ScopeStack) : Expr → Option Number
  | .int _ n => some (.int n)
  | .float _ x => some (.float x)
  | .ident span name => knownNumber? scopes limit (.ident ⟨0, span⟩ name)
  | .arithmetic _ left op right => do (← left.known? limit scopes).combine? op (← right.known? limit scopes)
  | _ => none

def Expr.isFlat : Expr → Bool
  | .int .. | .float .. | .str .. | .ident .. => true
  | .arithmetic _ left _ right | .comparison _ left _ right => left.isFlat && right.isFlat
  | _ => false

theorem Expr.isFlat_of_isNumeric : ∀ {e : Expr}, e.isNumeric = true → e.isFlat = true
  | .int .., _ | .float .., _ | .ident .., _ => rfl
  | .arithmetic _ _ _ _, h | .comparison _ _ _ _, h => by
    simp only [isNumeric, Bool.and_eq_true] at h
    simp [isFlat, isFlat_of_isNumeric h.1, isFlat_of_isNumeric h.2]

theorem Stmt.isNumeric_of_mem : ∀ {statements : List Stmt} {stmt : Stmt}, Stmt.allNumeric statements = true →
    stmt ∈ statements → stmt.isNumeric = true
  | first :: rest, stmt, h, hmem => by
    simp only [allNumeric, Bool.and_eq_true] at h
    rcases List.mem_cons.mp hmem with rfl | hmem
    · exact h.1
    · exact isNumeric_of_mem h.2 hmem

def Node.number? : Node → Option Number
  | .int _ n => some (.int n)
  | .float _ x => some (.float x)
  | _ => none

namespace Node

@[simp] theorem ids_ofNumber (tag : Tag) (k : Number) : (ofNumber tag k).ids = [tag.id] := by
  cases k <;> rfl

@[simp] theorem isNumeric_ofNumber (tag : Tag) (k : Number) : (ofNumber tag k).isNumeric = true := by
  cases k <;> rfl

@[simp] theorem eval_ofNumber {V : Type} (A : Arithmetic V) (env : String → V) (tag : Tag) (k : Number) :
    (ofNumber tag k).eval A env = A.ofNumber k := by
  cases k <;> rfl

@[simp] theorem knownNumber?_ofNumber (scopes : ScopeStack) (limit : Nat) (tag : Tag) (k : Number) :
    knownNumber? scopes limit (ofNumber tag k) = some k := by
  cases k <;> simp [ofNumber, knownNumber?]

theorem isStatement_of_isNumeric : ∀ {n : Node}, n.isNumeric = true → n.isStatement = true
  | .int .., _ | .float .., _ | .ident .., _ => rfl
  | .binary .., h | .comparison .., h => h

theorem exec_of_isNumeric {V : Type} (A : Arithmetic V) {σ : Store V} :
    ∀ {n : Node}, n.isNumeric = true → n.exec A σ = σ
  | .int .., _ | .float .., _ | .ident .., _ | .binary .., _ | .comparison .., _ => by simp [exec]

end Node

theorem Scope.get?_insert (s : Scope) (name : String) (value : Option Node) (other : String) :
    (s.insert name value).get? other = if other = name then some value else s.get? other := by
  unfold Scope.get? Scope.insert
  rw [List.lookup_cons]
  by_cases h : other = name
  · simp [h]
  · simp [h, beq_eq_false_iff_ne.mpr h]

/-- The name that a name is found to stand for in the end, if names that stand for names are followed. -/
def ScopeStack.origin (scopes : ScopeStack) : (limit : Nat) → String → String
  | 0, name => name
  | limit + 1, name =>
    match scopes.lookup name with
    | some (.ident _ other) => scopes.origin limit other
    | _ => name

/-- A name in whose place a number is put, which is the number of its origin. -/
structure Fold where
  name : String
  origin : String
  number : Number

def Expr.foldsHere (limit : Nat) (scopes : ScopeStack) : Expr → List Fold
  | e@(.ident _ name) => ((e.known? limit scopes).map (Fold.mk name (scopes.origin limit name))).toList
  | _ => []

def Expr.folds (limit : Nat) (scopes : ScopeStack) : Expr → List Fold
  | e@(.arithmetic _ left _ right) =>
    left.folds limit scopes ++ right.folds limit scopes ++
      if (e.known? limit scopes).isSome then left.foldsHere limit scopes ++ right.foldsHere limit scopes else []
  | .comparison _ left _ right => left.folds limit scopes ++ right.folds limit scopes
  | _ => []

def Fold.Faithful {V : Type} (A : Arithmetic V) (env : String → V) (f : Fold) : Prop :=
  env f.name = A.ofNumber f.number

namespace Loading

variable {here : Place} {s s' : State} {n : Node} {ns : List Node} {span bodySpan : Span}

/-! ## Steps -/

theorem inBlock_eq_ok {load : Loading (List Node)} (h : (inBlock span load).run s = .ok n s') :
    ∃ ns s₁, load.run { s with scopes := s.scopes.pushBlock } = .ok ns s₁ ∧
      n = .block ⟨s₁.nextId, span⟩ ns ∧
      s' = { s₁ with scopes := s₁.scopes.pop, nextId := s₁.nextId + 1 } := by
  simp only [inBlock, openScope, closeScope, bind_eq_ok, modify_eq_ok, build_eq_ok] at h
  obtain ⟨_, _, rfl, ns, s₁, hload, _, _, rfl, rfl, rfl⟩ := h
  exact ⟨ns, s₁, hload, rfl, rfl⟩

section
variable {value test : Expr} {body rest : List Stmt} {stmt : Stmt} {s₁ : State}

theorem loadStmt_decl {constant : Bool} {name : String}
    (h : (loadStmt here (.decl span constant name value)).run s = .ok n s') :
    ∃ v s₁, (loadExpr { here with inValue := true } value).run s = .ok v s₁ ∧
      n = .decl ⟨s₁.nextId, span⟩ constant name v ∧
      s' = { s₁ with nextId := s₁.nextId + 1, scopes := s₁.scopes.declare name v } := by
  simp only [loadStmt, declareName, bind_eq_ok, modify_eq_ok, build_eq_ok, pure_eq_ok] at h
  obtain ⟨v, s₁, hv, _, _, ⟨rfl, rfl⟩, _, _, rfl, rfl, rfl⟩ := h
  exact ⟨v, s₁, hv, rfl, rfl⟩

theorem loadStmt_letIn {decls : List Stmt}
    (h : (loadStmt here (.letIn span decls bodySpan body)).run s = .ok n s') :
    ∃ ds s₁ ss s₂, (loadBlock here decls).run { s with scopes := s.scopes.pushLetIn } = .ok ds s₁ ∧
      (loadBlock here body).run s₁ = .ok ss s₂ ∧
      n = .letIn ⟨s₂.nextId + 1, span⟩ ds (.block ⟨s₂.nextId, bodySpan⟩ ss) ∧
      s' = { s₂ with scopes := s₂.scopes.pop, nextId := s₂.nextId + 2 } := by
  simp only [loadStmt, openScope, closeScope, bind_eq_ok, modify_eq_ok, build_eq_ok] at h
  obtain ⟨_, _, rfl, ds, s₁, hds, ss, s₂, hss, _, _, rfl, _, _, ⟨rfl, rfl⟩, rfl, rfl⟩ := h
  exact ⟨ds, s₁, ss, s₂, hds, hss, rfl, rfl⟩

theorem loadStmt_ifThen
    (h : (loadStmt here (.ifThen span test bodySpan body)).run s = .ok n s') :
    ∃ t s₁ b s₂, (loadExpr here test).run s = .ok t s₁ ∧
      (inBlock bodySpan (loadBlock here body)).run s₁ = .ok b s₂ ∧ n = .ifThen ⟨s₂.nextId, span⟩ t b ∧
      s' = { s₂ with nextId := s₂.nextId + 1 } := by
  simp only [loadStmt, bind_eq_ok, build_eq_ok] at h
  obtain ⟨t, s₁, ht, b, s₂, hb, rfl, rfl⟩ := h
  exact ⟨t, s₁, b, s₂, ht, hb, rfl, rfl⟩

theorem loadStmt_ifElse {other : List Stmt} {otherSpan : Span}
    (h : (loadStmt here (.ifElse span test bodySpan body otherSpan other)).run s = .ok n s') :
    ∃ t s₁ b s₂ o s₃, (loadExpr here test).run s = .ok t s₁ ∧
      (inBlock bodySpan (loadBlock here body)).run s₁ = .ok b s₂ ∧
      (inBlock otherSpan (loadBlock here other)).run s₂ = .ok o s₃ ∧ n = .ifElse ⟨s₃.nextId, span⟩ t b o ∧
      s' = { s₃ with nextId := s₃.nextId + 1 } := by
  simp only [loadStmt, bind_eq_ok, build_eq_ok] at h
  obtain ⟨t, s₁, ht, b, s₂, hb, o, s₃, ho, rfl, rfl⟩ := h
  exact ⟨t, s₁, b, s₂, o, s₃, ht, hb, ho, rfl, rfl⟩

theorem loadStmt_ifElseIf {link : Stmt}
    (h : (loadStmt here (.ifElseIf span test bodySpan body link)).run s = .ok n s') :
    ∃ t s₁ b s₂ l s₃, (loadExpr here test).run s = .ok t s₁ ∧
      (inBlock bodySpan (loadBlock here body)).run s₁ = .ok b s₂ ∧ (loadStmt here link).run s₂ = .ok l s₃ ∧
      n = .ifElseIf ⟨s₃.nextId, span⟩ t b l ∧ s' = { s₃ with nextId := s₃.nextId + 1 } := by
  simp only [loadStmt, bind_eq_ok, build_eq_ok] at h
  obtain ⟨t, s₁, ht, b, s₂, hb, l, s₃, hl, rfl, rfl⟩ := h
  exact ⟨t, s₁, b, s₂, l, s₃, ht, hb, hl, rfl, rfl⟩

theorem loadStmt_print (h : (loadStmt here (.print span [value])).run s = .ok n s') :
    ∃ v s₁, (loadExpr here value).run s = .ok v s₁ ∧ n = .print ⟨s₁.nextId, span⟩ [v] ∧
      s' = { s₁ with nextId := s₁.nextId + 1 } := by
  simp only [loadStmt, loadExprs, bind_eq_ok, build_eq_ok, pure_eq_ok] at h
  obtain ⟨_, _, ⟨v, s₁, hv, _, _, ⟨rfl, rfl⟩, rfl, rfl⟩, rfl, rfl⟩ := h
  exact ⟨v, s₁, hv, rfl, rfl⟩

theorem loadBlock_cons (h : (loadBlock here (stmt :: rest)).run s = .ok ns s') :
    ∃ n s₁ ns', (loadStmt here stmt).run s = .ok n s₁ ∧
      (loadBlock here rest).run
        { s₁ with table := if n.isDecl && !here.inValue then s₁.table.append here.function n else s₁.table } =
          .ok ns' s' ∧ ns = n :: ns' := by
  simp only [loadBlock, bind_eq_ok, pure_eq_ok] at h
  obtain ⟨n, s₁, hn, _, s₂, hdecl, ns', _, hns, rfl, rfl⟩ := h
  refine ⟨n, s₁, ns', hn, ?_, rfl⟩
  rw [← hns]
  unfold appendDecl at hdecl
  split at hdecl
  next hcond => rw [(append_eq_ok.mp hdecl).2, if_pos hcond]
  next hcond => rw [← (pure_eq_ok.mp hdecl).2, if_neg hcond]

theorem loadSequence_cons
    (h : (loadSequence here (stmt :: rest)).run s = .ok ns s') :
    ∃ n s₁ ns', (loadStmt here stmt).run s = .ok n s₁ ∧
      (loadSequence here rest).run { s₁ with table := s₁.table.append here.function n } = .ok ns' s' ∧
      ns = n :: ns' := by
  simp only [loadSequence, append_eq_ok, bind_eq_ok, pure_eq_ok] at h
  obtain ⟨n, s₁, hn, _, s₂, ⟨-, rfl⟩, ns', _, hns, rfl, rfl⟩ := h
  exact ⟨n, s₁, ns', hn, hns, rfl⟩

theorem loadBlock_singleton
    (h : (loadBlock here (stmt :: rest)).run s = .ok ns s') (hn : (loadStmt here stmt).run s = .ok n s₁) :
    (loadBlock here [stmt]).run s = .ok [n]
      { s₁ with table := if n.isDecl && !here.inValue then s₁.table.append here.function n else s₁.table } := by
  simp only [loadBlock, bind_eq_ok] at h
  obtain ⟨_, _, hn', _, s₂, hdecl, -⟩ := h
  obtain ⟨rfl, rfl⟩ := EStateM.Result.ok.inj (hn.symm.trans hn')
  refine bind_eq_ok.mpr ⟨n, s₁, hn, bind_eq_ok.mpr ⟨(), s₂, hdecl, pure_eq_ok.mpr ⟨rfl, ?_⟩⟩⟩
  unfold appendDecl at hdecl
  split at hdecl
  next hcond => rw [(append_eq_ok.mp hdecl).2, if_pos hcond]
  next hcond => rw [← (pure_eq_ok.mp hdecl).2, if_neg hcond]

theorem loadSequence_singleton
    (h : (loadSequence here (stmt :: rest)).run s = .ok ns s') (hn : (loadStmt here stmt).run s = .ok n s₁) :
    (loadSequence here [stmt]).run s = .ok [n] { s₁ with table := s₁.table.append here.function n } := by
  simp only [loadSequence, bind_eq_ok] at h
  obtain ⟨_, _, hn', _, s₂, happend, -⟩ := h
  obtain ⟨rfl, rfl⟩ := EStateM.Result.ok.inj (hn.symm.trans hn')
  obtain ⟨-, rfl⟩ := append_eq_ok.mp happend
  exact bind_eq_ok.mpr ⟨n, s₁, hn, bind_eq_ok.mpr ⟨(), _, happend, rfl⟩⟩

end

/-! ## Expressions -/

section
variable {e : Expr}

inductive Stands (limit : Nat) (scopes : ScopeStack) : Expr → Node → Prop
  | int (span : Span) (tag : Tag) (n : Int64) : Stands limit scopes (.int span n) (.int tag n)
  | float (span : Span) (tag : Tag) (x : Float) : Stands limit scopes (.float span x) (.float tag x)
  | str (span : Span) (tag : Tag) (text : String) : Stands limit scopes (.str span text) (.str tag text)
  | ident (span : Span) (tag : Tag) (name : String) : Stands limit scopes (.ident span name) (.ident tag name)
  | comparison {left right l r} (span : Span) (tag : Tag) (op : String) (hl : Stands limit scopes left l)
      (hr : Stands limit scopes right r) : Stands limit scopes (.comparison span left op right) (.comparison tag l op r)
  | known {left right span op k} (tag : Tag)
      (h : (Expr.arithmetic span left op right).known? limit scopes = some k) :
      Stands limit scopes (.arithmetic span left op right) (.ofNumber tag k)
  | arithmetic {left right l r span op} (tag : Tag)
      (h : (Expr.arithmetic span left op right).known? limit scopes = none) (hl : Stands limit scopes left l)
      (hr : Stands limit scopes right r) : Stands limit scopes (.arithmetic span left op right) (.binary tag l op r)

theorem eval_of_known {V : Type} (A : Arithmetic V) {limit : Nat} {scopes : ScopeStack}
    {env : String → V} : ∀ {e : Expr} {k : Number}, e.known? limit scopes = some k →
      (∀ f ∈ e.folds limit scopes, f.Faithful A env) → (∀ f ∈ e.foldsHere limit scopes, f.Faithful A env) →
        e.eval A env = A.ofNumber k
  | .int .., k, hk, _, _ | .float .., k, hk, _, _ => by
    simp only [Expr.known?, Option.some.injEq] at hk
    rw [← hk, Expr.eval]
  | .ident _ name, k, hk, _, hh => hh ⟨name, scopes.origin limit name, k⟩ (by simp [Expr.foldsHere, hk])
  | .arithmetic _ left op right, k, hk, hf, _ => by
    have hknown := hk
    simp only [Expr.known?, Option.bind_eq_bind, Option.bind_eq_some_iff] at hk
    obtain ⟨a, ha, b, hb, hab⟩ := hk
    simp only [Expr.folds, hknown, Option.isSome_some, if_true, List.mem_append] at hf
    rw [Expr.eval, eval_of_known A ha (fun f h => hf f (.inl (.inl h))) fun f h => hf f (.inr (.inl h)),
      eval_of_known A hb (fun f h => hf f (.inl (.inr h))) fun f h => hf f (.inr (.inr h))]
    exact A.apply_of_combine? hab

namespace Stands

variable {limit : Nat} {scopes : ScopeStack}

theorem known?_eq (h : Stands limit scopes e n) : knownNumber? scopes limit n = e.known? limit scopes := by
  cases h with
  | int | float | str | ident => cases limit <;> rfl
  | comparison => simp [knownNumber?, Expr.known?]
  | known tag hk => rw [hk, Node.knownNumber?_ofNumber]
  | arithmetic tag hk => rw [hk]; simp [knownNumber?]

theorem isNumeric (h : Stands limit scopes e n) : e.isNumeric = true → n.isNumeric = true := by
  induction h with
  | int | float => exact fun _ => rfl
  | str | ident => exact fun he => he
  | known => exact fun _ => Node.isNumeric_ofNumber _ _
  | comparison _ _ _ _ _ hl hr | arithmetic _ _ _ _ hl hr =>
    intro he
    simp only [Expr.isNumeric, Bool.and_eq_true] at he
    simp [Node.isNumeric, hl he.1, hr he.2]

theorem eval {V : Type} (A : Arithmetic V) (env : String → V) (h : Stands limit scopes e n) :
    (∀ f ∈ e.folds limit scopes, f.Faithful A env) → n.eval A env = e.eval A env := by
  induction h with
  | int | float | str | ident => exact fun _ => rfl
  | comparison _ _ _ _ _ hl hr =>
    intro hf
    rw [Node.eval, Expr.eval, hl fun f h => hf f (List.mem_append_left _ h),
      hr fun f h => hf f (List.mem_append_right _ h)]
  | known tag hk =>
    intro hf
    rw [Node.eval_ofNumber, eval_of_known A hk hf (by simp [Expr.foldsHere])]
  | arithmetic _ _ _ _ hl hr =>
    intro hf
    simp only [Expr.folds, List.mem_append] at hf
    rw [Node.eval, Expr.eval, hl fun f h => hf f (.inl (.inl h)), hr fun f h => hf f (.inl (.inr h))]

end Stands

/-- What loading an expression without calls from the state `s` gives. -/
structure LoadsExpr (e : Expr) (s : State) (n : Node) (s' : State) : Prop where
  state : s' = { s with nextId := s'.nextId }
  le : s.nextId ≤ s'.nextId
  ids : ∀ i ∈ n.ids, s.nextId ≤ i ∧ i < s'.nextId
  stands : Stands s.names s.scopes e n

theorem LoadsExpr.numeric (h : LoadsExpr e s n s') (he : e.isNumeric = true) : n.isNumeric = true :=
  h.stands.isNumeric he

theorem LoadsExpr.eval {V : Type} (h : LoadsExpr e s n s') (A : Arithmetic V) (env : String → V)
    (hf : ∀ f ∈ e.folds s.names s.scopes, f.Faithful A env) : n.eval A env = e.eval A env :=
  h.stands.eval A env hf

theorem loadsExpr_of_build {make : Tag → Node} (hleaf : ∀ tag, (make tag).id = tag.id ∧ (make tag).children = [])
    (hstands : ∀ tag, Stands s.names s.scopes e (make tag)) :
    ∃ n s', (build span make).run s = .ok n s' ∧ LoadsExpr e s n s' := by
  refine ⟨_, _, build_eq_ok.mpr ⟨rfl, rfl⟩, rfl, Nat.le_succ _, fun i hi => ?_, hstands _⟩
  rw [Node.ids_eq, (hleaf _).1, (hleaf _).2] at hi
  obtain rfl : i = s.nextId := by simpa using hi
  exact ⟨Nat.le_refl _, Nat.lt_succ_self _⟩

theorem ids_of_operands {left right : Node} {i a b c : NodeId} (hab : a ≤ b) (hbc : b ≤ c)
    (hl : ∀ i ∈ left.ids, a ≤ i ∧ i < b) (hr : ∀ i ∈ right.ids, b ≤ i ∧ i < c)
    (hi : i ∈ c :: (left.ids ++ right.ids)) : a ≤ i ∧ i < c + 1 := by
  simp only [List.mem_cons, List.mem_append] at hi
  obtain rfl | hi | hi := hi
  · exact ⟨Nat.le_trans hab hbc, Nat.lt_succ_self _⟩
  · exact ⟨(hl i hi).1, Nat.lt_succ_of_lt (Nat.lt_of_lt_of_le (hl i hi).2 hbc)⟩
  · exact ⟨Nat.le_trans hab (hr i hi).1, Nat.lt_succ_of_lt (hr i hi).2⟩

theorem exists_loadsExpr (here : Place) : ∀ {e : Expr} (s : State), e.isFlat = true →
    ∃ n s', (loadExpr here e).run s = .ok n s' ∧ LoadsExpr e s n s'
  | .int .., s, _ => by
    unfold loadExpr
    exact loadsExpr_of_build (fun _ => ⟨rfl, rfl⟩) fun tag => .int ..
  | .float .., s, _ => by
    unfold loadExpr
    exact loadsExpr_of_build (fun _ => ⟨rfl, rfl⟩) fun tag => .float ..
  | .str .., s, _ => by
    unfold loadExpr
    exact loadsExpr_of_build (fun _ => ⟨rfl, rfl⟩) fun tag => .str ..
  | .ident .., s, _ => by
    unfold loadExpr
    exact loadsExpr_of_build (fun _ => ⟨rfl, rfl⟩) fun tag => .ident ..
  | .comparison span left op right, s, he => by
    simp only [Expr.isFlat, Bool.and_eq_true] at he
    obtain ⟨l, s₁, hl, Hl⟩ := exists_loadsExpr here s he.1
    obtain ⟨r, s₂, hr, Hr⟩ := exists_loadsExpr here s₁ he.2
    have hscopes : s₁.scopes = s.scopes := by rw [Hl.state]
    have hnames : s₁.names = s.names := by rw [Hl.state]
    have hright := Hr.stands
    rw [hscopes, hnames] at hright
    unfold loadExpr
    refine ⟨_, _, bind_eq_ok.mpr
      ⟨l, s₁, hl, bind_eq_ok.mpr ⟨r, s₂, hr, build_eq_ok.mpr ⟨rfl, rfl⟩⟩⟩, ?_⟩
    refine ⟨by rw [Hr.state, Hl.state], Nat.le_succ_of_le (Nat.le_trans Hl.le Hr.le), fun i hi => ?_,
      .comparison span _ op Hl.stands hright⟩
    refine ids_of_operands Hl.le Hr.le Hl.ids Hr.ids ?_
    simpa [Node.ids_eq (.comparison ..), Node.children, Node.id, Node.tag] using hi
  | .arithmetic span left op right, s, he => by
    simp only [Expr.isFlat, Bool.and_eq_true] at he
    obtain ⟨l, s₁, hl, Hl⟩ := exists_loadsExpr here s he.1
    obtain ⟨r, s₂, hr, Hr⟩ := exists_loadsExpr here s₁ he.2
    have hscopes : s₁.scopes = s.scopes := by rw [Hl.state]
    have hnames : s₁.names = s.names := by rw [Hl.state]
    have hscopes₂ : s₂.scopes = s.scopes := by rw [Hr.state, hscopes]
    have hnames₂ : s₂.names = s.names := by rw [Hr.state, hnames]
    have hright := Hr.stands
    rw [hscopes, hnames] at hright
    obtain ⟨n, hbuild, hmade⟩ := exists_buildArithmetic s₂ span l op r
    unfold loadExpr
    refine ⟨n, _, bind_eq_ok.mpr ⟨l, s₁, hl, bind_eq_ok.mpr ⟨r, s₂, hr, hbuild⟩⟩, ?_⟩
    have hle : s.nextId ≤ s₂.nextId := Nat.le_trans Hl.le Hr.le
    have hstate : s₂ = { s with nextId := s₂.nextId } := by rw [Hr.state, Hl.state]
    have hknown : (do
          (← knownNumber? s₂.scopes s₂.names l).combine? op (← knownNumber? s₂.scopes s₂.names r)) =
        (Expr.arithmetic span left op right).known? s.names s.scopes := by
      rw [Expr.known?, ← Hl.stands.known?_eq, ← hright.known?_eq, hscopes₂, hnames₂]
    dsimp only at hmade
    rw [hknown] at hmade
    obtain ⟨k, hk, rfl⟩ | ⟨hk, rfl⟩ := hmade
    -- both operands are known: only the result is left of them
    · refine ⟨by rw [hstate], Nat.le_succ_of_le hle, fun i hi => ?_, .known _ hk⟩
      obtain rfl : i = s₂.nextId := by simpa using hi
      exact ⟨hle, Nat.lt_succ_self _⟩
    · refine ⟨by rw [hstate], Nat.le_succ_of_le hle, fun i hi => ?_, .arithmetic _ hk Hl.stands hright⟩
      refine ids_of_operands Hl.le Hr.le Hl.ids Hr.ids ?_
      simpa [Node.ids_eq (.binary ..), Node.children, Node.id, Node.tag] using hi

theorem loadExpr_loads (hn : e.isNumeric = true) (h : (loadExpr here e).run s = .ok n s') : LoadsExpr e s n s' := by
  obtain ⟨n', s₁, h', H⟩ := exists_loadsExpr here s (Expr.isFlat_of_isNumeric hn)
  obtain ⟨rfl, rfl⟩ := EStateM.Result.ok.inj (h.symm.trans h')
  exact H

/-! ## Statements -/

/-- What loading nodes from the state `s` does to a table of one function: it appends declarations, all of
them among `within`, and gives out new numbers. -/
structure Adds (s s' : State) (within nodes : List Node) : Prop where
  le : s.nextId ≤ s'.nextId
  ids : ∀ i ∈ nodes.flatMap Node.ids, s.nextId ≤ i ∧ i < s'.nextId
  table : ∃ decls, decls ⊆ within ∧
    ∀ r, s.table = ⟨[r]⟩ → s'.table = ⟨[{ r with sequence := r.sequence ++ decls }]⟩

theorem LoadsExpr.adds (h : LoadsExpr e s n s') : Adds s s' [] [n] := by
  refine ⟨h.le, by simpa using h.ids, [], List.Subset.refl _, fun r hr => ?_⟩
  rw [h.state, hr]
  simp

theorem Adds.none (h : s'.nextId = s.nextId) (ht : s'.table = s.table) : Adds s s' [] [] :=
  ⟨Nat.le_of_eq h.symm, by simp, [], List.Subset.refl _, fun r hr => by rw [ht, hr]; simp⟩

theorem Adds.append {s₁ : State} {within within' nodes nodes' : List Node} (h : Adds s s₁ within nodes)
    (h' : Adds s₁ s' within' nodes') : Adds s s' (within ++ within') (nodes ++ nodes') := by
  obtain ⟨decls, hdecls, htable⟩ := h.table
  obtain ⟨decls', hdecls', htable'⟩ := h'.table
  refine ⟨Nat.le_trans h.le h'.le, fun i hi => ?_, decls ++ decls', ?_, fun r hr => ?_⟩
  · rw [List.flatMap_append, List.mem_append] at hi
    rcases hi with hi | hi
    · exact ⟨(h.ids i hi).1, Nat.lt_of_lt_of_le (h.ids i hi).2 h'.le⟩
    · exact ⟨Nat.le_trans h.le (h'.ids i hi).1, (h'.ids i hi).2⟩
  · exact List.append_subset.mpr ⟨List.subset_append_of_subset_left _ hdecls,
      List.subset_append_of_subset_right _ hdecls'⟩
  · rw [htable' _ (htable r hr), List.append_assoc]

theorem Adds.build {s₁ : State} {within : List Node} (h : Adds s s₁ within n.children) (hid : n.id = s₁.nextId)
    (hwithin : within ⊆ n.inside true) (hnext : s'.nextId = s₁.nextId + 1) (ht : s'.table = s₁.table) :
    Adds s s' (n.inside true) [n] := by
  obtain ⟨decls, hdecls, htable⟩ := h.table
  refine ⟨hnext ▸ Nat.le_succ_of_le h.le, fun i hi => ?_, decls, List.Subset.trans hdecls hwithin, fun r hr => ?_⟩
  · rw [List.flatMap_cons, List.flatMap_nil, List.append_nil, Node.ids_eq, List.mem_cons, hid] at hi
    rw [hnext]
    rcases hi with rfl | hi
    · exact ⟨h.le, Nat.lt_succ_self _⟩
    · exact ⟨(h.ids i hi).1, Nat.lt_succ_of_lt (h.ids i hi).2⟩
  · rw [ht, htable r hr]

theorem Adds.appendDecl {s₁ : State} (h : Adds s s₁ (n.inside true) [n]) (p : Bool) :
    Adds s { s₁ with table := if p then s₁.table.append 0 n else s₁.table } (n :: n.inside true) [n] := by
  obtain ⟨decls, hdecls, htable⟩ := h.table
  cases p with
  | false => exact ⟨h.le, h.ids, decls, List.subset_cons_of_subset _ hdecls, htable⟩
  | true =>
    refine ⟨h.le, h.ids, decls ++ [n], ?_, fun r hr => ?_⟩
    · exact List.append_subset.mpr ⟨List.subset_cons_of_subset _ hdecls, by simp⟩
    · simp [htable r hr, FunctionTable.append]

theorem Adds.block {s₁ : State} (h : Adds s s₁ (Node.insideAll true ns) ns) (s' : State) (tag : Tag)
    (hid : tag.id = s₁.nextId) (hnext : s'.nextId = s₁.nextId + 1) (ht : s'.table = s₁.table) :
    Adds s s' ((Node.block tag ns).inside true) [.block tag ns] :=
  Adds.build (n := .block tag ns) h hid (List.Subset.refl _) hnext ht

theorem inBlock_adds {load : Loading (List Node)} (h : (inBlock span load).run s = .ok n s')
    (hload : ∀ {s s' ns}, load.run s = .ok ns s' →
      Adds s s' (Node.insideAll true ns) ns ∧ Node.areStatements ns = true) :
    Adds s s' (n.inside true) [n] ∧ n.isStatement = true := by
  obtain ⟨ns, s₁, hns, rfl, rfl⟩ := inBlock_eq_ok h
  obtain ⟨H, hstatements⟩ := hload hns
  have H' : Adds s s₁ _ ns := ⟨H.le, H.ids, H.table⟩
  exact ⟨H'.block _ _ rfl rfl rfl, hstatements⟩

mutual

theorem loadStmt_adds : ∀ {stmt : Stmt} {s s' : State} {n : Node}, stmt.isNumeric = true →
    (loadStmt ⟨0, false⟩ stmt).run s = .ok n s' → Adds s s' (n.inside true) [n] ∧ n.isStatement = true
  | .decl .., s, s', n, hn, h => by
    obtain ⟨v, s₁, hv, rfl, rfl⟩ := loadStmt_decl h
    have H := loadExpr_loads hn hv
    exact ⟨.build (n := .decl ..) H.adds rfl (List.nil_subset _) rfl rfl, H.numeric hn⟩
  | .letIn _ _ bodySpan _, s, s', n, hn, h => by
    simp only [Stmt.isNumeric, Bool.and_eq_true] at hn
    obtain ⟨ds, s₁, ss, s₂, hds, hss, rfl, rfl⟩ := loadStmt_letIn h
    obtain ⟨Hd, hd⟩ := loadBlock_adds hn.1 hds
    obtain ⟨Hs, hs⟩ := loadBlock_adds hn.2 hss
    have Hd' : Adds s s₁ _ ds := ⟨Hd.le, Hd.ids, Hd.table⟩
    have Hbody := Hs.block { s₂ with nextId := s₂.nextId + 1 } ⟨s₂.nextId, bodySpan⟩ rfl rfl rfl
    refine ⟨.build (n := .letIn ..) (Hd'.append Hbody) rfl ?_ rfl rfl, by simp [Node.isStatement, hd, hs]⟩
    rw [Node.inside]
    exact List.append_subset.mpr ⟨List.subset_append_left _ _,
      List.subset_append_of_subset_right _ (List.subset_cons_self _ _)⟩
  | .ifThen .., s, s', n, hn, h => by
    simp only [Stmt.isNumeric, Bool.and_eq_true] at hn
    obtain ⟨t, s₁, b, s₂, ht, hb, rfl, rfl⟩ := loadStmt_ifThen h
    have Ht := loadExpr_loads hn.1 ht
    obtain ⟨Hb, hb⟩ := inBlock_adds hb (loadBlock_adds hn.2)
    refine ⟨.build (n := .ifThen ..) (Ht.adds.append Hb) rfl ?_ rfl rfl, by simp [Node.isStatement,
      Ht.numeric hn.1, hb]⟩
    intro d hd
    simp only [List.nil_append] at hd
    simp [Node.inside, hd]
  | .ifElse .., s, s', n, hn, h => by
    simp only [Stmt.isNumeric, Bool.and_eq_true] at hn
    obtain ⟨t, s₁, b, s₂, o, s₃, ht, hb, ho, rfl, rfl⟩ := loadStmt_ifElse h
    have Ht := loadExpr_loads hn.1.1 ht
    obtain ⟨Hb, hb⟩ := inBlock_adds hb (loadBlock_adds hn.1.2)
    obtain ⟨Ho, ho⟩ := inBlock_adds ho (loadBlock_adds hn.2)
    refine ⟨.build (n := .ifElse ..) (Ht.adds.append (Hb.append Ho)) rfl ?_ rfl rfl,
      by simp [Node.isStatement, Ht.numeric hn.1.1, hb, ho]⟩
    intro d hd
    simp only [List.nil_append, List.mem_append] at hd
    rcases hd with hd | hd <;> simp [Node.inside, hd]
  | .ifElseIf .., s, s', n, hn, h => by
    simp only [Stmt.isNumeric, Bool.and_eq_true] at hn
    obtain ⟨t, s₁, b, s₂, l, s₃, ht, hb, hl, rfl, rfl⟩ := loadStmt_ifElseIf h
    have Ht := loadExpr_loads hn.1.1 ht
    obtain ⟨Hb, hb⟩ := inBlock_adds hb (loadBlock_adds hn.1.2)
    obtain ⟨Hl, hl⟩ := loadStmt_adds hn.2 hl
    refine ⟨.build (n := .ifElseIf ..) (Ht.adds.append (Hb.append Hl)) rfl ?_ rfl rfl,
      by simp [Node.isStatement, Ht.numeric hn.1.1, hb, hl]⟩
    intro d hd
    simp only [List.nil_append, List.mem_append] at hd
    rcases hd with hd | hd <;> simp [Node.inside, hd]
  | .block .., s, s', n, hn, h => by
    unfold loadStmt at h
    exact inBlock_adds h (loadBlock_adds hn)
  | .print _ [value], s, s', n, hn, h => by
    obtain ⟨v, s₁, hv, rfl, rfl⟩ := loadStmt_print h
    have H := loadExpr_loads hn hv
    exact ⟨.build (n := .print ..) H.adds rfl (List.nil_subset _) rfl rfl, H.numeric hn⟩
  | .expr value, s, s', n, hn, h => by
    unfold loadStmt at h
    have H := loadExpr_loads hn h
    refine ⟨⟨H.adds.le, H.adds.ids, ?_⟩, Node.isStatement_of_isNumeric (H.numeric hn)⟩
    obtain ⟨decls, hdecls, htable⟩ := H.adds.table
    exact ⟨decls, List.Subset.trans hdecls (List.nil_subset _), htable⟩

theorem loadBlock_adds : ∀ {statements : List Stmt} {s s' : State} {ns : List Node},
    Stmt.allNumeric statements = true → (loadBlock ⟨0, false⟩ statements).run s = .ok ns s' →
      Adds s s' (Node.insideAll true ns) ns ∧ Node.areStatements ns = true
  | [], s, s', ns, _, h => by
    obtain ⟨rfl, rfl⟩ := pure_eq_ok.mp h
    exact ⟨.none rfl rfl, rfl⟩
  | stmt :: rest, s, s', ns, hn, h => by
    simp only [Stmt.allNumeric, Bool.and_eq_true] at hn
    obtain ⟨n, s₁, ns, hstmt, hrest, rfl⟩ := loadBlock_cons h
    obtain ⟨Hn, hn₁⟩ := loadStmt_adds hn.1 hstmt
    obtain ⟨Hns, hns⟩ := loadBlock_adds hn.2 hrest
    exact ⟨(Hn.appendDecl _).append Hns, by simp [Node.areStatements, hn₁, hns]⟩

end

/-! ## The sequence of `main` -/

theorem roots_append_cons {rest : List Node} (hn : ∀ m ∈ rest, m.contains n.id = false) :
    ∀ {decls : List Node}, decls ⊆ n.inside true →
      Lowering.Plain.roots (decls ++ n :: rest) = n :: Lowering.Plain.roots rest
  | [], _ => by
    rw [List.nil_append, Lowering.Plain.roots, if_neg (by simpa using hn)]
  | d :: decls, h => by
    have hd : n.contains d.id = true :=
      Node.contains_iff.mpr (List.mem_map_of_mem (h List.mem_cons_self))
    rw [List.cons_append, Lowering.Plain.roots, if_pos (by simp [hd])]
    exact roots_append_cons hn fun m hm => h (List.mem_cons_of_mem d hm)

theorem loadSequence_adds : ∀ {statements : List Stmt} {s s' : State} {ns : List Node},
    (∀ stmt ∈ statements, ∀ s n s', (loadStmt ⟨0, false⟩ stmt).run s = .ok n s' →
      Adds s s' (n.inside true) [n]) →
    (loadSequence ⟨0, false⟩ statements).run s = .ok ns s' → ∃ entries, Lowering.Plain.roots entries = ns ∧
      (∀ n ∈ entries, ∀ i ∈ n.ids, s.nextId ≤ i) ∧
      ∀ r, s.table = ⟨[r]⟩ → s'.table = ⟨[{ r with sequence := r.sequence ++ entries }]⟩
  | [], s, s', ns, _, h => by
    obtain ⟨rfl, rfl⟩ := pure_eq_ok.mp h
    exact ⟨[], rfl, by simp, fun r hr => by simpa using hr⟩
  | stmt :: rest, s, s', ns, hadds, h => by
    rw [List.forall_mem_cons] at hadds
    obtain ⟨n, s₁, ns, hstmt, hrest, rfl⟩ := loadSequence_cons h
    have H := hadds.1 _ _ _ hstmt
    obtain ⟨entries, hroots, hids, htable⟩ := loadSequence_adds hadds.2 hrest
    obtain ⟨decls, hdecls, htable₁⟩ := H.table
    have hidsn : ∀ i ∈ n.ids, s.nextId ≤ i ∧ i < s₁.nextId := by simpa using H.ids
    -- What comes later has later numbers.
    have hlater : ∀ m ∈ entries, m.contains n.id = false := by
      intro m hm
      rw [Bool.eq_false_iff]
      intro hcontains
      exact Nat.not_lt_of_le (hids m hm _ (Node.mem_ids_of_contains hcontains)) (hidsn _ (Node.id_mem_ids n)).2
    refine ⟨decls ++ n :: entries, ?_, ?_, fun r hr => ?_⟩
    · rw [roots_append_cons hlater hdecls, hroots]
    · intro m hm i hi
      rcases List.mem_append.mp hm with hm | hm
      · exact (hidsn i (Node.ids_subset_of_mem_inside (hdecls hm) hi)).1
      · rcases List.mem_cons.mp hm with rfl | hm
        · exact (hidsn i hi).1
        · exact Nat.le_trans H.le (hids m hm i hi)
    · have := htable { r with sequence := r.sequence ++ decls ++ [n] } (by simp [htable₁ r hr, FunctionTable.append])
      simpa using this

theorem loadSequence_areStatements : ∀ {statements : List Stmt} {s s' : State} {ns : List Node},
    Stmt.allNumeric statements = true → (loadSequence ⟨0, false⟩ statements).run s = .ok ns s' →
      Node.areStatements ns = true
  | [], s, s', ns, _, h => by
    obtain ⟨rfl, rfl⟩ := pure_eq_ok.mp h
    rfl
  | stmt :: rest, s, s', ns, hn, h => by
    simp only [Stmt.allNumeric, Bool.and_eq_true] at hn
    obtain ⟨n, s₁, ns, hstmt, hrest, rfl⟩ := loadSequence_cons h
    simp [Node.areStatements, (loadStmt_adds hn.1 hstmt).2, loadSequence_areStatements hn.2 hrest]

end

end Loading
end Bies
