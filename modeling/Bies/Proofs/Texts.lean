import Bies.Proofs.Straight

/-!
# Texts in sums

Programs of declarations and prints of sums, in which numbers and texts occur. A sum with a text joins
texts. Lowering finds texts by following names to the expressions that were stored in them last, whose
names it follows as they are now. It is right if no name on the way is stale: the expression stored in
it, were it evaluated again, would be a text as before or a number as before.
-/

namespace Bies

open Loading

/-! ## Evaluation -/

namespace Expr

def isSum (names : List String) : Expr → Bool
  | .int .. | .float .. | .str .. => true
  | .ident _ name => names.contains name
  | .arithmetic _ left op right => op = "+" && left.isSum names && right.isSum names
  | _ => false

def number? : Expr → Option Number
  | .int _ n => some (.int n)
  | .float _ x => some (.float x)
  | .arithmetic _ left op right => do (← left.number?).combine? op (← right.number?)
  | _ => none

def operands : Expr → List Expr
  | e@(.arithmetic _ left _ right) =>
    if e.number?.isSome then [] else left :: right :: (left.operands ++ right.operands)
  | _ => []

end Expr

def Stmt.operands : Stmt → List Expr
  | .decl _ _ _ value => value.operands
  | .print _ args => args.flatMap (·.operands)
  | _ => []

structure Variables where
  /-- In the order of their slots. -/
  names : List String
  isText : String → Bool
  /-- The expression whose value was stored last. -/
  stored : String → Option Expr

namespace Variables

def start : Variables := ⟨[], fun _ => false, fun _ => none⟩

def text (σ : Variables) : Expr → Bool
  | .str .. => true
  | .ident _ name => σ.isText name
  | .arithmetic _ left _ right => σ.text left || σ.text right
  | _ => false

def store (σ : Variables) (name : String) (value : Expr) : Variables where
  names := if name ∈ σ.names then σ.names else σ.names ++ [name]
  isText other := if other = name then σ.text value else σ.isText other
  stored other := if other = name then some value else σ.stored other

def after (σ : Variables) : Stmt → Variables
  | .decl _ _ name value => σ.store name value
  | _ => σ

def points (σ : Variables) : List Stmt → List (Variables × Stmt)
  | [] => []
  | stmt :: rest => (σ, stmt) :: (σ.after stmt).points rest

def admits (σ : Variables) : Stmt → Bool
  | .decl _ _ _ value => value.isSum σ.names
  | .print _ args => args.all (·.isSum σ.names)
  | _ => false

/-! ## Code by evaluation -/

/-- The code of an expression, in which a sum joins texts if evaluation makes one of its operands a text. -/
def code (σ : Variables) : Expr → Code
  | .int _ n => [.ldv (.int n)]
  | .float _ x => [.ldv (.float x)]
  | .str _ text => [.ldv (.str text)]
  | .ident _ name => [.bld 0 (σ.names.idxOf name)]
  | e@(.arithmetic _ left _ right) =>
    match e.number? with
    | some (.int n) => [.ldv (.int n)]
    | some (.float x) => [.ldv (.float x)]
    | none => σ.code right ++ σ.code left ++ [if σ.text left || σ.text right then .cat else .add]
  | _ => []

def stmtCode (σ : Variables) : Stmt → Code
  | .decl _ _ name value => σ.code value ++ [.bst 0 ((σ.store name value).names.idxOf name)]
  | .print _ args => args.flatMap σ.code ++ [.prn]
  | _ => []

/-! ## Following names -/

/-- The paths from the expression, through operands and from names to what is stored in them, end within `limit`
expressions. -/
def ends (σ : Variables) : (limit : Nat) → Expr → Bool
  | 0, _ => false
  | limit + 1, .ident _ name => (σ.stored name).any (σ.ends limit)
  | limit + 1, .arithmetic _ left _ right => σ.ends limit left && σ.ends limit right
  | _ + 1, _ => true

def reached (σ : Variables) : (limit : Nat) → Expr → List String
  | 0, _ => []
  | limit + 1, .ident _ name => name :: ((σ.stored name).map (σ.reached limit)).getD []
  | limit + 1, .arithmetic _ left _ right => σ.reached limit left ++ σ.reached limit right
  | _ + 1, _ => []

/-- What is stored in the name would still be a text, or still be none. -/
def Current (σ : Variables) (name : String) : Prop := ∀ e ∈ σ.stored name, σ.isText name = σ.text e

instance (σ : Variables) (name : String) : Decidable (σ.Current name) :=
  inferInstanceAs (Decidable (∀ e ∈ σ.stored name, σ.isText name = σ.text e))

def finds (σ : Variables) : (limit : Nat) → Expr → Bool
  | 0, _ => false
  | _ + 1, .str .. => true
  | limit + 1, .ident _ name => (σ.stored name).any (σ.finds limit)
  | limit + 1, .arithmetic _ left _ right => σ.finds limit left || σ.finds limit right
  | _ + 1, _ => false

variable {σ : Variables}

theorem exists_mem_points {stmt : Stmt} : ∀ {σ : Variables} {statements : List Stmt}, stmt ∈ statements →
    ∃ τ, (τ, stmt) ∈ σ.points statements
  | σ, _ :: _, .head _ => ⟨σ, .head _⟩
  | σ, first :: _, .tail _ h => by
    obtain ⟨τ, hτ⟩ := exists_mem_points (σ := σ.after first) h
    exact ⟨τ, .tail _ hτ⟩

theorem finds_eq_text :
    ∀ {limit : Nat} {e : Expr}, σ.ends limit e = true → (∀ name ∈ σ.reached limit e, σ.Current name) →
    σ.finds limit e = σ.text e
  | limit + 1, e, hends, hcurrent => by
    cases e with
    | ident span name =>
      rw [ends] at hends
      rw [reached] at hcurrent
      rw [finds, text]
      cases hstored : σ.stored name with
      | none =>
        rw [hstored] at hends
        cases hends
      | some value =>
        rw [hstored] at hends hcurrent
        obtain ⟨hname, hvalue⟩ := List.forall_mem_cons.mp hcurrent
        rw [hname value hstored]
        exact finds_eq_text hends hvalue
    | arithmetic span left op right =>
      simp only [ends, Bool.and_eq_true] at hends
      rw [reached, List.forall_mem_append] at hcurrent
      rw [finds, text, finds_eq_text hends.1 hcurrent.1, finds_eq_text hends.2 hcurrent.2]
    | _ => rfl

end Variables

/-! ## Loading -/

theorem Expr.known?_empty {limit : Nat} : ∀ e : Expr, e.known? limit .empty = e.number?
  | .int .. | .float .. | .str .. | .comparison .. | .call .. | .access .. | .list .. | .lambda .. | .malformed .. => rfl
  | .ident .. => by cases limit <;> rfl
  | .arithmetic _ left _ right => by rw [known?, number?, known?_empty left, known?_empty right]

theorem Expr.isFlat_of_isSum {names : List String} : ∀ {e : Expr}, e.isSum names = true → e.isFlat = true
  | .int .., _ | .float .., _ | .str .., _ | .ident .., _ => rfl
  | .arithmetic _ _ _ _, h => by
    simp only [isSum, Bool.and_eq_true] at h
    simp [isFlat, isFlat_of_isSum h.1.2, isFlat_of_isSum h.2]

theorem Expr.plainNames_of_isSum {names : List String} : ∀ {e : Expr}, e.isSum names = true → e.PlainNames
  | .int .., _ | .float .., _ | .str .., _ | .ident .., _ => trivial
  | .arithmetic _ _ _ _, h => by
    simp only [isSum, Bool.and_eq_true] at h
    exact ⟨plainNames_of_isSum h.1.2, plainNames_of_isSum h.2⟩

namespace Loading

/-- The node is what is made of the statement where `scopes` are open. -/
inductive StandsStmt (limit : Nat) (scopes : ScopeStack) : Stmt → Node → Prop
  | decl {value v} (span : Span) (tag : Tag) (constant : Bool) (name : String)
      (h : Stands limit scopes value v) : StandsStmt limit scopes (.decl span constant name value)
        (.decl tag constant name v)
  | print {args vs} (span : Span) (tag : Tag)
    (h : List.Forall₂ (Stands limit scopes) args vs) :
      StandsStmt limit scopes (.print span args) (.print tag vs)

theorem exists_loadsExprs (here : Place) : ∀ {es : List Expr} (s : State), es.all (·.isFlat) = true →
    ∃ ns s', (loadExprs here es).run s = .ok ns s' ∧ s' = { s with nextId := s'.nextId } ∧ Adds s s' [] ns ∧
      List.Forall₂ (Stands s.names s.scopes) es ns
  | [], s, _ => ⟨[], s, rfl, rfl, .none rfl rfl, .nil⟩
  | e :: rest, s, h => by
    rw [List.all_cons, Bool.and_eq_true] at h
    obtain ⟨n, s₁, hn, Hn⟩ := exists_loadsExpr here s h.1
    have hnames : s₁.names = s.names := by rw [Hn.state]
    have hscopes : s₁.scopes = s.scopes := by rw [Hn.state]
    obtain ⟨ns, s₂, hns, hstate, Hns, hstands⟩ := exists_loadsExprs here s₁ h.2
    rw [hnames, hscopes] at hstands
    refine ⟨n :: ns, s₂, ?_, by rw [hstate, Hn.state], Hn.adds.append Hns, .cons Hn.stands hstands⟩
    exact bind_eq_ok.mpr ⟨n, s₁, hn, bind_eq_ok.mpr ⟨ns, s₂, hns, rfl⟩⟩

theorem exists_loadsStmt {σ : Variables} : ∀ {stmt : Stmt} (s : State), σ.admits stmt = true →
    ∃ n s', (loadStmt ⟨0, false⟩ stmt).run s = .ok n s' ∧ Adds s s' (n.inside true) [n] ∧
      s'.names = s.names ∧
      (s.scopes = .empty → s'.scopes = .empty) ∧ StandsStmt s.names s.scopes stmt n
  | .decl span constant name value, s, h => by
    obtain ⟨v, s₁, hv, Hv⟩ := exists_loadsExpr ⟨0, true⟩ s (Expr.isFlat_of_isSum h)
    let s' : State := { s₁ with nextId := s₁.nextId + 1, scopes := s₁.scopes.declare name v }
    have hrun : (loadStmt ⟨0, false⟩ (.decl span constant name value)).run s =
        .ok (.decl ⟨s₁.nextId, span⟩ constant name v) s' := by
      unfold loadStmt
      refine bind_eq_ok.mpr ⟨v, s₁, hv, bind_eq_ok.mpr ⟨_, _, build_eq_ok.mpr ⟨rfl, rfl⟩, ?_⟩⟩
      exact bind_eq_ok.mpr ⟨(), s', modify_eq_ok.mpr rfl, rfl⟩
    have hscopes : s'.scopes = s.scopes.declare name v := by
      have : s₁.scopes = s.scopes := by rw [Hv.state]
      rw [← this]
    have hnames : s'.names = s.names := by
      have : s₁.names = s.names := by rw [Hv.state]
      rw [← this]
    refine ⟨_, s', hrun, ?_, hnames, fun hs => ?_, .decl span _ constant name Hv.stands⟩
    · exact .build (n := .decl ..) Hv.adds rfl (List.nil_subset _) rfl rfl
    · rw [hscopes, hs]
      rfl
  | .print span args, s, h => by
    have hflat : args.all (·.isFlat) = true := by
      rw [Variables.admits, List.all_eq_true] at h
      exact List.all_eq_true.mpr fun e he => Expr.isFlat_of_isSum (h e he)
    obtain ⟨vs, s₁, hvs, hstate, Hvs, hstands⟩ := exists_loadsExprs ⟨0, false⟩ s hflat
    have hrun : (loadStmt ⟨0, false⟩ (.print span args)).run s =
        .ok (.print ⟨s₁.nextId, span⟩ vs) { s₁ with nextId := s₁.nextId + 1 } := by
      unfold loadStmt
      exact bind_eq_ok.mpr ⟨vs, s₁, hvs, build_eq_ok.mpr ⟨rfl, rfl⟩⟩
    refine ⟨_, _, hrun, ?_, by rw [hstate], fun hs => by rw [hstate]; exact hs, .print span _ hstands⟩
    exact .build (n := .print ..) Hvs rfl (List.nil_subset _) rfl rfl

theorem exists_loadsSequence : ∀ {σ : Variables} {statements : List Stmt} {r : FunctionRecord} (s : State),
    s.scopes = .empty → s.table = ⟨[r]⟩ → (∀ p ∈ σ.points statements, p.1.admits p.2 = true) →
    ∃ ns s', (loadSequence ⟨0, false⟩ statements).run s = .ok ns s' ∧
      List.Forall₂ (StandsStmt s.names .empty) statements ns
  | _, [], _, s, _, _, _ => ⟨[], s, rfl, .nil⟩
  | σ, stmt :: rest, r, s, hs, htable, h => by
    obtain ⟨hstmt, hrest⟩ := List.forall_mem_cons.mp h
    obtain ⟨n, s₁, hn, Hn, hnames, hs₁, hstands⟩ := exists_loadsStmt s hstmt
    obtain ⟨decls, -, htable₁⟩ := Hn.table
    have happend : (append 0 n).run s₁ = .ok () { s₁ with table := s₁.table.append 0 n } := by
      refine append_eq_ok.mpr ⟨?_, rfl⟩
      rw [htable₁ r htable]
      exact Nat.zero_lt_one
    obtain ⟨ns, s₂, hns, hall⟩ := exists_loadsSequence (r := { r with sequence := r.sequence ++ decls ++ [n] })
      { s₁ with table := s₁.table.append 0 n } (hs₁ hs) (by simp [htable₁ r htable, FunctionTable.append]) hrest
    refine ⟨n :: ns, s₂, ?_, .cons (hs ▸ hstands) (hnames ▸ hall)⟩
    exact bind_eq_ok.mpr ⟨n, s₁, hn, bind_eq_ok.mpr ⟨(), _, happend, bind_eq_ok.mpr ⟨ns, s₂, hns, rfl⟩⟩⟩

end Loading

/-! ## Lowering -/

structure Frame.Has (limit : Nat) (F : Frame) (σ : Variables) : Prop where
  names : F.map (·.name) = σ.names
  bound : ∀ {name slot}, F.slot? name = some slot → ∃ e n names, σ.stored name = some e ∧
    F.value? slot = some n ∧
    Loading.Stands limit .empty e n ∧ e.isSum names = true
  unbound : ∀ {name}, F.slot? name = none → σ.stored name = none

namespace Lowering

def Yields {α : Type} (F : Frame) (x : Lowering α) (a : α) (F' : Frame) : Prop :=
  ∀ s, s.frames = ⟨[F]⟩ → ∃ s', x.run s = .ok a s' ∧ s'.frames = ⟨[F']⟩ ∧ s'.skipped = s.skipped

section
variable {α β : Type} {F F₁ F₂ : Frame} {x : Lowering α} {k : α → Lowering β} {a : α} {b : β}

theorem Yields.bind (hx : Yields F x a F₁) (hk : Yields F₁ (k a) b F₂) : Yields F (x >>= k) b F₂ := by
  intro s hs
  obtain ⟨s₁, h₁, hs₁, hskip₁⟩ := hx s hs
  obtain ⟨s₂, h₂, hs₂, hskip₂⟩ := hk s₁ hs₁
  exact ⟨s₂, bind_eq_ok.mpr ⟨a, s₁, h₁, h₂⟩, hs₂, hskip₂.trans hskip₁⟩

theorem Yields.ret : Yields F (pure a) a F := fun s hs => ⟨s, rfl, hs, rfl⟩

end

variable {c : Context} {σ : Variables} {F : Frame}

theorem isTextual_ofNumber (frames : Frames) (limit : Nat) (tag : Tag) (k : Number) :
    isTextual c frames limit (.ofNumber tag k) = false := by
  cases limit <;> cases k <;> rfl

theorem finds_of_number? : ∀ {limit : Nat} {e : Expr} {k : Number}, e.number? = some k → σ.finds limit e = false
  | 0, _, _, _ => rfl
  | limit + 1, .int .., _, _ | limit + 1, .float .., _, _ => rfl
  | limit + 1, .arithmetic _ left op right, k, h => by
    simp only [Expr.number?, Option.bind_eq_bind, Option.bind_eq_some_iff] at h
    obtain ⟨a, ha, b, hb, -⟩ := h
    rw [Variables.finds, finds_of_number? ha, finds_of_number? hb, Bool.or_false]

section
variable {k : Nat} {ns : List Node} {n : Node}

/-- Lowering finds the texts on the paths that names are followed on. -/
theorem isTextual_eq_finds (hc : InMain c) (hF : F.Has k σ) :
    ∀ {limit : Nat} {e : Expr} {n : Node} {names : List String}, Stands k .empty e n → e.isSum names = true →
    isTextual c ⟨[F]⟩ limit n = σ.finds limit e
  | 0, _, _, _, _, _ => rfl
  | limit + 1, _, _, names, h, he => by
    cases h with
    | int | float | str => rfl
    | comparison => cases he
    | ident span tag name =>
      rw [isTextual, Variables.finds]
      rw [hc.chain, Frames.resolve?_main]
      cases hslot : F.slot? name with
      | none => rw [hF.unbound hslot]; rfl
      | some slot =>
        obtain ⟨e, n, names, hstored, hvalue, hstands, hsum⟩ := hF.bound hslot
        simp only [Option.map_some, Option.bind_some, hvalue, hstored, Option.any_some]
        exact isTextual_eq_finds hc hF hstands hsum
    | known tag hk => rw [isTextual_ofNumber, finds_of_number? (Expr.known?_empty _ ▸ hk)]
    | arithmetic tag hk hl hr =>
      simp only [Expr.isSum, Bool.and_eq_true, decide_eq_true_eq] at he
      simp only [isTextual, Variables.finds, he.1.1, decide_true, Bool.true_and,
        isTextual_eq_finds hc hF hl he.1.2, isTextual_eq_finds hc hF hr he.2]

def Rightly (σ : Variables) (e : Expr) : Prop :=
  ∀ operand ∈ e.operands, σ.finds maxTextual operand = σ.text operand

theorem slot?_of_has (hF : F.Has k σ) {name : String} (h : name ∈ σ.names) :
    F.slot? name = some (σ.names.idxOf name) := by
  rw [Frame.slot?_eq, hF.names, List.findIdx?_eq_some_iff_findIdx_eq]
  have hidx : (σ.names.findIdx fun x => decide (x = name)) = σ.names.idxOf name := by
    simp only [List.idxOf, beq_eq_decide]
  exact ⟨hidx ▸ List.idxOf_lt_length_of_mem h, hidx⟩

theorem value_yields (hc : InMain c) (hF : F.Has k σ) : ∀ {e : Expr} {n : Node}, Stands k .empty e n →
    e.isSum σ.names = true → Rightly σ e → Yields F (Plain.value c n) (σ.code e) F := by
  intro e n h
  induction h with
  | int | float | str =>
    intro _ _
    unfold Plain.value
    exact .ret
  | ident span tag name =>
    intro he _
    unfold Plain.value
    have hslot := slot?_of_has hF (List.contains_iff_mem.mp he)
    refine .bind (a := .bld 0 (σ.names.idxOf name)) (fun s hs => ⟨s, ?_, hs, rfl⟩) .ret
    unfold loadName
    refine bind_eq_ok.mpr ⟨s, s, rfl, ?_⟩
    rw [hs, hc.chain, Frames.resolve?_main, hslot]
    rfl
  | comparison => exact nofun
  | @known left right span op number tag hk =>
    intro _ _
    rw [Expr.known?_empty] at hk
    rw [Variables.code, hk]
    cases number <;> exact .ret
  | @arithmetic left right l r span op tag hk hl hr ihl ihr =>
    intro he hright
    rw [Expr.known?_empty] at hk
    simp only [Expr.isSum, Bool.and_eq_true, decide_eq_true_eq] at he
    obtain ⟨⟨rfl, hleftSum⟩, hrightSum⟩ := he
    unfold Rightly at hright ihl ihr
    rw [Expr.operands, hk, Option.isSome_none, if_neg Bool.false_ne_true, List.forall_mem_cons, List.forall_mem_cons,
      List.forall_mem_append] at hright
    obtain ⟨hleft, hright, hinLeft, hinRight⟩ := hright
    have hinstruction : Yields F (arithmeticInstruction c tag l "+" r)
        (if σ.text left || σ.text right then .cat else .add) F := by
      intro s hs
      refine ⟨s, bind_eq_ok.mpr ⟨s, s, rfl, ?_⟩, hs, rfl⟩
      rw [hs]
      dsimp only
      rw [isTextual_eq_finds hc hF hl hleftSum, isTextual_eq_finds hc hF hr hrightSum, hleft, hright]
      rfl
    unfold Plain.value
    rw [Variables.code, hk]
    exact .bind hinstruction (.bind (ihr hrightSum hinRight) (.bind (ihl hleftSum hinLeft) .ret))

theorem values_yield (hc : InMain c) (hF : F.Has k σ) {es : List Expr}
    (h : List.Forall₂ (Stands k .empty) es ns) : es.all (·.isSum σ.names) = true → (∀ e ∈ es, Rightly σ e) →
      Yields F (Plain.values c ns) (es.flatMap σ.code) F := by
  induction h with
  | nil =>
    intro _ _
    unfold Plain.values
    exact .ret
  | cons hn _ ih =>
    intro hsum hright
    rw [List.all_cons, Bool.and_eq_true] at hsum
    rw [List.forall_mem_cons] at hright
    unfold Plain.values
    exact .bind (value_yields hc hF hn hsum.1 hright.1) (.bind (ih hsum.2 hright.2) .ret)

theorem isSome_slot? (hF : F.Has k σ) (name : String) : (F.slot? name).isSome = true ↔ name ∈ σ.names := by
  rw [Frame.slot?_eq, hF.names, List.findIdx?_isSome]
  simp

theorem has_store (hF : F.Has k σ) (name : String) {e : Expr} (h : Stands k .empty e n)
    (he : e.isSum σ.names = true) : (F.bind name (some n)).2.Has k (σ.store name e) where
  names := by
    rw [Frame.names_bind, hF.names]
    simp only [isSome_slot? hF, Variables.store]
  bound {other slot} hslot := by
    by_cases hother : other = name
    · subst hother
      rw [Frame.slot?_bind] at hslot
      obtain rfl := Option.some.inj hslot
      exact ⟨e, n, σ.names, by simp [Variables.store], F.value?_bind _ _, h, he⟩
    · rw [Frame.slot?_bind_ne _ _ hother] at hslot
      obtain ⟨e', n', names, hstored, hvalue, hstands, hsum⟩ := hF.bound hslot
      refine ⟨e', n', names, by simp [Variables.store, hother, hstored], ?_, hstands, hsum⟩
      rw [← hvalue]
      exact F.value?_bind_ne _ (List.findIdx?_eq_some_iff_getElem.mp hslot).1 fun hname =>
        hother (Frame.slot?_inj hslot hname)
  unbound {other} hslot := by
    have hother : other ≠ name := by
      rintro rfl
      rw [Frame.slot?_bind] at hslot
      cases hslot
    rw [Frame.slot?_bind_ne _ _ hother] at hslot
    simp [Variables.store, hother, hF.unbound hslot]

theorem stmt_yields (hc : InMain c) (hF : F.Has k σ) {stmt : Stmt} (h : StandsStmt k .empty stmt n)
    (hstmt : σ.admits stmt = true)
    (hright : ∀ operand ∈ stmt.operands, σ.finds maxTextual operand = σ.text operand) :
    ∃ F', Yields F (Plain.stmt c n) (σ.stmtCode stmt) F' ∧ F'.Has k (σ.after stmt) := by
  cases h with
  | @decl value v span tag constant name hv =>
    have hstore := has_store hF name hv hstmt
    refine ⟨_, ?_, hstore⟩
    have hslot : (F.bind name (some v)).1 = (σ.store name value).names.idxOf name := by
      have hmem : name ∈ (σ.store name value).names := by
        unfold Variables.store
        split <;> simp [*]
      exact Option.some.inj ((F.slot?_bind name (some v)).symm.trans (slot?_of_has hstore hmem))
    have hbind : Yields F (bind c name (some v)) (F.bind name (some v)).1 (F.bind name (some v)).2 := by
      intro s hs
      refine ⟨{ s with frames := ⟨[(F.bind name (some v)).2]⟩ }, modifyGet_eq_ok.mpr ?_, rfl, rfl⟩
      rw [hc.function, hs, Frames.bind_main]
    unfold Plain.stmt
    rw [Variables.stmtCode, ← hslot]
    exact .bind (value_yields hc hF hv hstmt hright) (.bind hbind .ret)
  | print span tag hvs =>
    refine ⟨F, ?_, hF⟩
    unfold Plain.stmt
    exact .bind (values_yield hc hF hvs hstmt fun e he operand hoperand =>
      hright operand (List.mem_flatMap.mpr ⟨e, he, hoperand⟩)) .ret

theorem stmts_yield (hc : InMain c) {statements : List Stmt}
    (h : List.Forall₂ (StandsStmt k .empty) statements ns) : ∀ {σ : Variables} {F : Frame}, F.Has k σ →
      (∀ p ∈ σ.points statements, p.1.admits p.2 = true) →
      (∀ p ∈ σ.points statements, ∀ operand ∈ p.2.operands, p.1.finds maxTextual operand = p.1.text operand) →
      ∃ F', Yields F (Plain.stmts c ns) ((σ.points statements).flatMap fun p => p.1.stmtCode p.2) F' := by
  induction h with
  | nil =>
    intro σ F _ _ _
    unfold Plain.stmts
    exact ⟨F, .ret⟩
  | cons hn _ ih =>
    intro σ F hF hadmits hright
    obtain ⟨hadmits, hadmitsRest⟩ := List.forall_mem_cons.mp hadmits
    obtain ⟨hright, hrightRest⟩ := List.forall_mem_cons.mp hright
    obtain ⟨F₁, hstmt, hF₁⟩ := stmt_yields hc hF hn hadmits hright
    obtain ⟨F₂, hrest⟩ := ih hF₁ hadmitsRest hrightRest
    unfold Plain.stmts
    exact ⟨F₂, .bind hstmt (.bind hrest .ret)⟩

end

end Lowering

/-! ## Compiling -/

namespace Program

def points (program : Program) : List (Variables × Stmt) := Variables.start.points program

theorem allPlainNames_of_isSum {names : List String} : ∀ {es : List Expr}, es.all (·.isSum names) = true →
    Expr.AllPlainNames es
  | [], _ => trivial
  | _ :: _, h => by
    rw [List.all_cons, Bool.and_eq_true] at h
    exact ⟨Expr.plainNames_of_isSum h.1, allPlainNames_of_isSum h.2⟩

theorem plainNames_of_points : ∀ {σ : Variables} {statements : List Stmt},
    (∀ p ∈ σ.points statements, p.1.admits p.2 = true) → Stmt.AllPlainNames statements
  | _, [], _ => trivial
  | σ, stmt :: rest, h => by
    obtain ⟨hstmt, hrest⟩ := List.forall_mem_cons.mp h
    refine ⟨?_, plainNames_of_points hrest⟩
    cases stmt with
    | decl => exact Expr.plainNames_of_isSum hstmt
    | print => exact allPlainNames_of_isSum hstmt
    | _ => cases hstmt

theorem exists_ofProgram {program : Program} (h : ∀ p ∈ points program, p.1.admits p.2 = true) :
    ∃ entries k, (FunctionTable.ofProgram program).result = .ok (.ofMain entries) ∧
      List.Forall₂ (StandsStmt k .empty) program (Lowering.Plain.roots entries) := by
  obtain ⟨ns, s, hrun, hstands⟩ := exists_loadsSequence {} rfl rfl h
  have hadds : ∀ stmt ∈ program, ∀ s n s', (loadStmt ⟨0, false⟩ stmt).run s = .ok n s' →
    Adds s s' (n.inside true) [n] := by
    intro stmt hstmt s n s' hn
    obtain ⟨σ, hpoint⟩ := Variables.exists_mem_points hstmt
    obtain ⟨n', s'', hn', H, -⟩ := exists_loadsStmt s (h _ hpoint)
    obtain ⟨rfl, rfl⟩ := EStateM.Result.ok.inj (hn'.symm.trans hn)
    exact H
  obtain ⟨entries, hroots, -, htable⟩ := loadSequence_adds hadds hrun
  refine ⟨entries, _, ?_, hroots ▸ hstands⟩
  have hload : (load program).run {} = .ok s.table _ := bind_eq_ok.mpr ⟨ns, s, hrun, rfl⟩
  rw [FunctionTable.ofProgram, Outcome.ofRun, hload, htable ⟨0, mainName, [], none, []⟩ rfl]
  rfl

/-- The code of a program of numbers and texts: if no name that lowering follows is stale, each sum is lowered as
evaluation in order says. -/
theorem compileTree_of_current (options : Options) {source : List Char} {tree : Tree}
    (hadmits : ∀ p ∈ points (ofTree source tree), p.1.admits p.2 = true)
    (hends : ∀ p ∈ points (ofTree source tree), ∀ e ∈ p.2.operands, p.1.ends Lowering.maxTextual e = true)
    (hcurrent : ∀ p ∈ points (ofTree source tree), ∀ e ∈ p.2.operands,
      ∀ name ∈ p.1.reached Lowering.maxTextual e, p.1.Current name) :
    (compileTree options source tree).result = .ok ⟨[⟨0, mainName, 0, 0,
      ((points (ofTree source tree)).flatMap fun p => p.1.stmtCode p.2) ++ [.hlt]⟩], []⟩ := by
  obtain ⟨entries, k, hload, hstands⟩ := exists_ofProgram hadmits
  have hseparated := FunctionTable.separated_of_ofProgram (plainNames_of_points hadmits) hload
  have hstart : Frame.Has k [] .start := ⟨rfl, nofun, fun _ => rfl⟩
  obtain ⟨F, hyields⟩ := Lowering.stmts_yield (Lowering.inMain_ofMain entries options) hstands hstart hadmits
    fun p hp e he => Variables.finds_eq_text (hends p hp e he) (hcurrent p hp e he)
  obtain ⟨s, hcode, -, hskipped⟩ := hyields { frames := ⟨[[]]⟩, events := [.loweringFunction 0 mainName] } rfl
  have hplain := Assembly.plain_ofMain hcode
  rw [hskipped, ← Assembly.ofTable_eq_plain options hseparated] at hplain
  simp only [compileTree, Outcome.andThen, hload, hplain]
  rfl

def sums (code : Code) : List Bool :=
  code.filterMap fun
    | .cat => some true
    | .add => some false
    | _ => none

def renewedTextSource : List Char :=
  "let a = \"x\" let b = a + 1 let a = \"y\" let c = 3 let d = c + 4 let c = 5 print(b + c) print(d + c)".toList

theorem compileTree_of_renewedText : ∃ tree, Tree.parse renewedTextSource = .ok tree ∧
    (∀ p ∈ points (ofTree renewedTextSource tree), p.1.admits p.2 = true) ∧
    (∀ p ∈ points (ofTree renewedTextSource tree), ∀ e ∈ p.2.operands, p.1.ends Lowering.maxTextual e = true) ∧
    (∀ p ∈ points (ofTree renewedTextSource tree), ∀ e ∈ p.2.operands,
      ∀ name ∈ p.1.reached Lowering.maxTextual e, p.1.Current name) ∧
    ∃ code, (compileTree {} renewedTextSource tree).result = .ok ⟨[⟨0, mainName, 0, 0, code⟩], []⟩ ∧
      sums code = [true, false, true, false] := by
  obtain ⟨tree, hparse, hp⟩ := Tree.exists_of_parse renewedTextSource (p := fun tree =>
    let points := points (ofTree renewedTextSource tree)
    (∀ p ∈ points, p.1.admits p.2 = true) ∧
      (∀ p ∈ points, ∀ e ∈ p.2.operands, p.1.ends Lowering.maxTextual e = true) ∧
      (∀ p ∈ points, ∀ e ∈ p.2.operands, ∀ name ∈ p.1.reached Lowering.maxTextual e, p.1.Current name) ∧
      sums ((points.flatMap fun p => p.1.stmtCode p.2) ++ [.hlt]) = [true, false, true, false]) (by decide +kernel)
  obtain ⟨hadmits, hends, hcurrent, hsums⟩ := of_decide_eq_true hp
  exact ⟨tree, hparse, hadmits, hends, hcurrent, _, compileTree_of_current {} hadmits hends hcurrent, hsums⟩

/-- The name `b` still stands for `a` when `a` has become a number. -/
def staleTextSource : List Char := "let a = \"x\" let b = a let a = 1 print(b + 1)".toList

/-- The value of `b` is a text, and yet the sum does not join texts. -/
theorem not_sums_of_staleText : ∃ tree assembly, Tree.parse staleTextSource = .ok tree ∧
    (∀ p ∈ points (ofTree staleTextSource tree), p.1.admits p.2 = true) ∧
    (∀ p ∈ points (ofTree staleTextSource tree), ∀ e ∈ p.2.operands, p.1.ends Lowering.maxTextual e = true) ∧
    sums ((points (ofTree staleTextSource tree)).flatMap fun p => p.1.stmtCode p.2) = [true] ∧
    (compileTree {} staleTextSource tree).result = .ok assembly ∧
    assembly.functions.map (fun f => sums f.code) = [[false]] := by
  obtain ⟨tree, hparse, hp⟩ := Tree.exists_of_parse staleTextSource (p := fun tree =>
    let points := points (ofTree staleTextSource tree)
    (∀ p ∈ points, p.1.admits p.2 = true) ∧
      (∀ p ∈ points, ∀ e ∈ p.2.operands, p.1.ends Lowering.maxTextual e = true) ∧
      sums (points.flatMap fun p => p.1.stmtCode p.2) = [true] ∧
      (compileTree {} staleTextSource tree).result.toOption.any fun assembly =>
        assembly.functions.map (fun f => sums f.code) = [[false]]) (by decide +kernel)
  obtain ⟨hadmits, hends, hsums, hcode⟩ := of_decide_eq_true hp
  cases hcompile : (compileTree {} staleTextSource tree).result with
  | error e =>
    rw [hcompile] at hcode
    cases hcode
  | ok assembly =>
    rw [hcompile] at hcode
    exact ⟨tree, assembly, hparse, hadmits, hends, hsums, hcompile, of_decide_eq_true hcode⟩

end Program
end Bies
