import Bies.Compile
import Bies.Proofs.Chain
import Bies.Proofs.ParsedNames

/-!
# What a compilation fails with

Loading a program fails with a malformed construct and nothing else, and the nodes it makes have the
shapes that lowering asks for. Lowering them fails with an operator that has no instruction or with a
name that is bound nowhere, and nothing else.
-/

namespace Bies

namespace Node

mutual

def ValueWithin (b : Bounds) : Node → Prop
  | .binary _ left op right => b.arithmetic op ∧ left.ValueWithin b ∧ right.ValueWithin b
  | .comparison _ left op right => b.comparison op ∧ left.ValueWithin b ∧ right.ValueWithin b
  | .call _ _ args => ValuesWithin b args
  | .access _ _ index => index.ValueWithin b
  | .list _ items => ItemsWithin b items
  | .str _ text => b.string text
  | .int .. | .float .. | .ident .. | .lambda .. => True
  | _ => False

def ValuesWithin (b : Bounds) : List Node → Prop
  | [] => True
  | n :: rest => n.ValueWithin b ∧ ValuesWithin b rest

def ItemsWithin (b : Bounds) : List Node → Prop
  | [] => True
  | n :: rest => n.isLiteral = true ∧ n.ValueWithin b ∧ ItemsWithin b rest

end

mutual

def Within (b : Bounds) : Node → Prop
  | .decl _ _ _ value | .ret _ value => value.ValueWithin b
  | .letIn _ decls body => AllWithin b decls ∧ body.Within b
  | .ifThen _ test body => test.ValueWithin b ∧ body.Within b
  | .ifElse _ test body other => test.ValueWithin b ∧ body.Within b ∧ other.Within b
  | .ifElseIf _ test body link => test.ValueWithin b ∧ body.Within b ∧ link.isConditional = true ∧ link.Within b
  | .block _ statements => AllWithin b statements
  | .print _ args => ValuesWithin b args
  | .funDecl .. => True
  | n => n.ValueWithin b

def AllWithin (b : Bounds) : List Node → Prop
  | [] => True
  | n :: rest => n.Within b ∧ AllWithin b rest

end

theorem within_of_valueWithin {b : Bounds} : ∀ {n : Node}, n.ValueWithin b → n.Within b
  | .binary .., h | .comparison .., h | .call .., h | .access .., h | .list .., h | .str .., h => h
  | .int .., _ | .float .., _ | .ident .., _ | .lambda .., _ => trivial

end Node

/-! ## Loading -/

namespace Loading

/-- The functions are there, each has its number and stands in one with a smaller number, and their statements
are as they may be. -/
structure Sound (b : Bounds) (functions : List FunctionId) (s : State) : Prop where
  there : ∀ f ∈ functions, f < s.table.size
  numbered : ∀ {f : FunctionId} {r : FunctionRecord}, s.table.records[f]? = some r → r.id = f
  outward : ∀ {f g : FunctionId} {r : FunctionRecord}, s.table.records[f]? = some r → r.parent = some g → g < f
  entries : ∀ {f n}, s.table.Holds f n → n.Within b

def Reports (b : Bounds) (e : CompileError) : Prop :=
  ∃ fault span, e = .malformed fault span ∧ (b.fault fault ∨ fault = .itemNotLiteral ∨ fault = .mainReserved)

variable {b : Bounds} {functions : List FunctionId} {f : FunctionId} {α : Type} {P : α → Prop} {s : State}

theorem Sound.aside {s' : State} (h : Sound b functions s) (ht : s'.table = s.table) : Sound b functions s' := by
  obtain ⟨h₁, h₂, h₃, h₄⟩ := h
  constructor <;> simpa only [ht]

theorem ends_aside {change : State → State} (ht : ∀ s, (change s).table = s.table) :
    Ends (Sound b functions) (modify change) (fun _ => True) (Reports b) :=
  .change fun s hs => hs.aside (ht s)

theorem ends_freshId : Ends (Sound b functions) freshId (fun _ => True) (Reports b) :=
  .changeGet fun _ hs => ⟨trivial, hs.aside rfl⟩

section
variable {span : Span} {n : Node} {parent : FunctionId}

theorem ends_build {make : Tag → Node} {P : Node → Prop} (h : ∀ tag, P (make tag)) :
    Ends (Sound b functions) (build span make) P (Reports b) :=
  .bind ends_freshId fun _ _ => .ret (h _)

theorem Sound.append (h : Sound b functions s) (hn : n.Within b) :
    Sound b functions { s with table := s.table.append f n } where
  there g hg := by
    rw [size_append]
    exact h.there g hg
  numbered hr' := by
    obtain ⟨r, hr, rfl⟩ := records_append hr'
    rw [← h.numbered hr]
    split <;> rfl
  outward hr' hp := by
    obtain ⟨r, hr, rfl⟩ := records_append hr'
    refine h.outward hr ?_
    split at hp <;> exact hp
  entries he := by
    rcases FunctionTable.holds_append he with he | ⟨_, rfl⟩
    · exact h.entries he
    · exact hn

theorem ends_append (hf : f ∈ functions) (hn : n.Within b) :
    Ends (Sound b functions) (append f n) (fun _ => True) (Reports b) := by
  intro s hs
  have hrun : (append f n).run s = .ok () { s with table := s.table.append f n } :=
    append_eq_ok.mpr ⟨hs.there f hf, rfl⟩
  rw [hrun]
  exact ⟨trivial, hs.append hn⟩

theorem ends_appendDecl {here : Place} (hf : here.function ∈ functions) (hn : n.Within b) :
    Ends (Sound b functions) (appendDecl here n) (fun _ => True) (Reports b) := by
  unfold appendDecl
  split
  · exact ends_append hf hn
  · exact .ret trivial

theorem Sound.clear (h : Sound b functions s) : Sound b functions { s with table := s.table.clear f } where
  there g hg := by
    simpa [FunctionTable.clear, FunctionTable.size] using h.there g hg
  numbered hr' := by
    obtain ⟨r, hr, rfl | rfl⟩ := records_clear hr'
    · exact h.numbered hr
    · exact (h.numbered hr :)
  outward hr' hp := by
    obtain ⟨r, hr, rfl | rfl⟩ := records_clear hr'
    · exact h.outward hr hp
    · exact h.outward hr hp
  entries := by
    rintro g n ⟨r', hr', hn⟩
    obtain ⟨r, hr, rfl | rfl⟩ := records_clear hr'
    · exact h.entries ⟨r', hr, hn⟩
    · cases hn

theorem Sound.declare (h : Sound b functions s) (name : String) (params : List String)
    (hparent : parent ∈ functions) : Sound b ((s.table.declare name params parent).1 :: functions)
      { s with table := (s.table.declare name params parent).2 } where
  there := by
    refine List.forall_mem_cons.mpr ⟨declare_lt h.numbered, fun g hg => ?_⟩
    exact Nat.lt_of_lt_of_le (h.there g hg) (size_le_declare ..)
  numbered hr' := by
    rcases records_declare hr' with ⟨r, hr, rfl | rfl⟩ | ⟨rfl, rfl⟩
    · exact h.numbered hr
    · exact (h.numbered hr :)
    · rfl
  outward hr' hp := by
    rcases records_declare hr' with ⟨r, hr, rfl | rfl⟩ | ⟨rfl, rfl⟩
    · exact h.outward hr hp
    · exact h.outward hr hp
    · obtain rfl := Option.some.inj hp
      exact h.there _ hparent
  entries := by
    rintro g n ⟨r', hr', hn⟩
    rcases records_declare hr' with ⟨r, hr, rfl | rfl⟩ | ⟨rfl, rfl⟩
    · exact h.entries ⟨r', hr, hn⟩
    · exact h.entries ⟨r, hr, hn⟩
    · cases hn

theorem ends_declareFunction {name : String} {params : List String}
    {k : FunctionId → Loading α} (hparent : parent ∈ functions)
    (hk : ∀ f, Ends (Sound b (f :: functions)) (k f) P (Reports b)) :
    Ends (Sound b functions) (declareFunction parent name params span >>= k) P (Reports b) := by
  by_cases hname : name = mainName
  · unfold declareFunction
    rw [if_pos hname, bind_assoc]
    exact .bind (P := fun _ => False) (.fail ⟨_, _, rfl, .inr (.inr rfl)⟩) nofun
  · intro s hs
    have hdeclare : (declareFunction parent name params span).run s = .ok (s.table.declare name params parent).1
        { s with table := (s.table.declare name params parent).2 } := by
      unfold declareFunction
      rw [if_neg hname]
      exact modifyGet_eq_ok.mpr rfl
    have hk := hk _ _ (hs.declare name params hparent)
    rw [EStateM.run_bind, hdeclare]
    dsimp only
    split at hk
    next heq =>
      rw [heq]
      exact ⟨hk.1, fun g hg => hk.2.there g (List.mem_cons_of_mem _ hg), hk.2.numbered, hk.2.outward, hk.2.entries⟩
    next heq =>
      rw [heq]
      exact hk

theorem ends_buildArithmetic {left right : Node} {op : String} (hop : b.arithmetic op)
    (hl : left.ValueWithin b) (hr : right.ValueWithin b) :
    Ends (Sound b functions) (buildArithmetic span left op right) (Node.ValueWithin b) (Reports b) := by
  unfold buildArithmetic
  refine .bind .read fun s _ => ?_
  dsimp only
  split
  · exact ends_build fun _ => trivial
  · exact ends_build fun _ => trivial
  · exact ends_build fun _ => ⟨hop, hl, hr⟩

theorem ends_inBlock {load : Loading (List Node)}
    (h : Ends (Sound b functions) load (Node.AllWithin b) (Reports b)) :
    Ends (Sound b functions) (inBlock span load) (Node.Within b) (Reports b) := by
  unfold inBlock
  exact .bind (ends_aside fun _ => rfl) fun _ _ => .bind h fun nodes hnodes =>
    .bind (ends_aside fun _ => rfl) fun _ _ => ends_build fun _ => hnodes

end

mutual

theorem loadExpr_ends {here : Place} : ∀ {functions : List FunctionId} {e : Expr}, here.function ∈ functions →
    e.Within b → Ends (Sound b functions) (loadExpr here e) (Node.ValueWithin b) (Reports b)
  | _, .int .., _, _ | _, .float .., _, _ | _, .ident .., _, _ => by
    unfold loadExpr
    exact ends_build fun _ => trivial
  | _, .str .., _, h => by
    unfold loadExpr
    exact ends_build fun _ => h
  | _, .arithmetic .., hf, h => by
    unfold loadExpr
    exact .bind (loadExpr_ends hf h.2.1) fun l hl => .bind (loadExpr_ends hf h.2.2) fun r hr =>
      ends_buildArithmetic h.1 hl hr
  | _, .comparison .., hf, h => by
    unfold loadExpr
    exact .bind (loadExpr_ends hf h.2.1) fun l hl => .bind (loadExpr_ends hf h.2.2) fun r hr =>
      ends_build fun _ => ⟨h.1, hl, hr⟩
  | _, .call .., hf, h => by
    unfold loadExpr
    exact .bind (loadExprs_ends hf h) fun args hargs => ends_build fun _ => hargs
  | _, .access .., hf, h => by
    unfold loadExpr
    exact .bind (loadExpr_ends hf h) fun index hindex => ends_build fun _ => hindex
  | _, .list .., hf, h => by
    unfold loadExpr
    exact .bind (loadItems_ends hf h) fun items hitems => ends_build fun _ => hitems
  | _, .lambda .., hf, h => by
    unfold loadExpr
    exact .bind ends_freshId fun id _ => ends_declareFunction hf fun f =>
      .bind (ends_aside fun _ => rfl) fun _ _ => .bind (loadBody_ends List.mem_cons_self h) fun _ _ => .ret trivial
  | _, .malformed _ fault, _, h => by
    unfold loadExpr
    exact .fail ⟨fault, _, rfl, .inl h⟩

theorem loadExprs_ends {here : Place} : ∀ {functions : List FunctionId} {es : List Expr},
    here.function ∈ functions → Expr.AllWithin b es →
      Ends (Sound b functions) (loadExprs here es) (Node.ValuesWithin b) (Reports b)
  | _, [], _, _ => by
    unfold loadExprs
    exact .ret trivial
  | _, _ :: _, hf, h => by
    unfold loadExprs
    exact .bind (loadExpr_ends hf h.1) fun n hn => .bind (loadExprs_ends hf h.2) fun ns hns => .ret ⟨hn, hns⟩

theorem loadItems_ends {here : Place} : ∀ {functions : List FunctionId} {es : List Expr},
    here.function ∈ functions → Expr.AllWithin b es →
      Ends (Sound b functions) (loadItems here es) (Node.ItemsWithin b) (Reports b)
  | _, [], _, _ => by
    unfold loadItems
    exact .ret trivial
  | _, _ :: _, hf, h => by
    unfold loadItems
    refine .bind (loadExpr_ends hf h.1) fun n hn => ?_
    split
    next hliteral => exact .bind (loadItems_ends hf h.2) fun ns hns => .ret ⟨hliteral, hn, hns⟩
    next => exact .bind (P := fun _ => False) (.fail ⟨_, _, rfl, .inr (.inl rfl)⟩) nofun

theorem loadBody_ends {f : FunctionId} {params : List String} : ∀ {functions : List FunctionId} {body : Body},
    f ∈ functions → body.Within b →
      Ends (Sound b functions) (loadBody f params body) (fun _ => True) (Reports b)
  | _, .block .., hf, h => by
    unfold loadBody
    have hplace : (⟨f, false⟩ : Place).function ∈ _ := hf
    exact .bind (ends_aside fun _ => rfl) fun _ _ => .bind (loadSequence_ends hplace h) fun ns _ =>
      .bind (ends_aside fun _ => rfl) fun _ _ => ends_build fun _ => trivial
  | _, .value .., hf, h => by
    unfold loadBody
    have hplace : (⟨f, false⟩ : Place).function ∈ _ := hf
    refine .bind (ends_aside fun _ => rfl) fun _ _ => .bind (loadExpr_ends hplace h) fun v hv =>
      .bind (ends_aside fun _ => rfl) fun _ _ => .bind (P := Node.Within b) (ends_build fun _ => hv) fun n hn => ?_
    exact .bind (ends_append hf hn) fun _ _ => .ret trivial

theorem loadStmt_ends {here : Place} : ∀ {functions : List FunctionId} {stmt : Stmt}, here.function ∈ functions →
    stmt.Within b → Ends (Sound b functions) (loadStmt here stmt)
      (fun n => n.Within b ∧ (stmt.isLink = true → n.isConditional = true)) (Reports b)
  | _, .decl .., hf, h => by
    unfold loadStmt
    have hplace : ({ here with inValue := true } : Place).function ∈ _ := hf
    refine .bind (loadExpr_ends hplace h) fun v hv => ?_
    refine .bind (P := Node.Within b) (ends_build fun _ => hv) fun n hn => ?_
    exact .bind (ends_aside fun _ => rfl) fun _ _ => .ret ⟨hn, nofun⟩
  | _, .lambdaDecl .., hf, h => by
    unfold loadStmt
    exact .bind ends_freshId fun id _ => ends_declareFunction hf fun f =>
      .bind (.change fun _ hs => hs.clear) fun _ _ => .bind (ends_aside fun _ => rfl) fun _ _ =>
        .bind (loadBody_ends List.mem_cons_self h.2) fun _ _ =>
          .bind (ends_aside fun _ => rfl) fun _ _ => .ret ⟨trivial, nofun⟩
  | _, .funDecl .., hf, h => by
    unfold loadStmt
    refine ends_declareFunction hf fun f => .bind (ends_aside fun _ => rfl) fun _ _ =>
      .bind (loadBody_ends List.mem_cons_self h.2) fun _ _ => ?_
    refine .bind (P := Node.Within b) (ends_build fun _ => trivial) fun n hn => ?_
    exact .bind (ends_aside fun _ => rfl) fun _ _ => .ret ⟨hn, nofun⟩
  | _, .letIn .., hf, h => by
    unfold loadStmt
    refine .bind (ends_aside fun _ => rfl) fun _ _ => .bind (loadBlock_ends hf h.1) fun ds hds =>
      .bind (loadBlock_ends hf h.2) fun ss hss => .bind (ends_aside fun _ => rfl) fun _ _ => ?_
    exact .bind (P := Node.Within b) (ends_build fun _ => hss) fun body hbody =>
      ends_build fun _ => ⟨⟨hds, hbody⟩, nofun⟩
  | _, .ifThen .., hf, h => by
    unfold loadStmt
    exact .bind (loadExpr_ends hf h.1) fun t ht => .bind (ends_inBlock (loadBlock_ends hf h.2)) fun body hbody =>
      ends_build fun _ => ⟨⟨ht, hbody⟩, fun _ => rfl⟩
  | _, .ifElse .., hf, h => by
    unfold loadStmt
    exact .bind (loadExpr_ends hf h.1) fun t ht => .bind (ends_inBlock (loadBlock_ends hf h.2.1)) fun body hbody =>
      .bind (ends_inBlock (loadBlock_ends hf h.2.2)) fun other hother =>
        ends_build fun _ => ⟨⟨ht, hbody, hother⟩, fun _ => rfl⟩
  | _, .ifElseIf .., hf, h => by
    unfold loadStmt
    exact .bind (loadExpr_ends hf h.1) fun t ht => .bind (ends_inBlock (loadBlock_ends hf h.2.1)) fun body hbody =>
      .bind (loadStmt_ends hf h.2.2.2) fun link hlink =>
        ends_build fun _ => ⟨⟨ht, hbody, hlink.2 h.2.2.1, hlink.1⟩, fun _ => rfl⟩
  | _, .block _ statements, hf, h => by
    unfold loadStmt
    exact (ends_inBlock (loadBlock_ends hf h)).imp (fun _ hn => ⟨hn, nofun⟩) fun _ he => he
  | _, .ret .., hf, h => by
    unfold loadStmt
    exact .bind (loadExpr_ends hf h) fun v hv => ends_build fun _ => ⟨hv, nofun⟩
  | _, .print .., hf, h => by
    unfold loadStmt
    exact .bind (loadExprs_ends hf h) fun vs hvs => ends_build fun _ => ⟨hvs, nofun⟩
  | _, .expr value, hf, h => by
    unfold loadStmt
    exact (loadExpr_ends hf h).imp (fun _ hn => ⟨Node.within_of_valueWithin hn, nofun⟩) fun _ he => he
  | _, .malformed _ fault, _, h => by
    unfold loadStmt
    exact .fail ⟨fault, _, rfl, .inl h⟩

theorem loadSequence_ends {here : Place} : ∀ {functions : List FunctionId} {statements : List Stmt},
    here.function ∈ functions → Stmt.AllWithin b statements →
      Ends (Sound b functions) (loadSequence here statements) (Node.AllWithin b) (Reports b)
  | _, [], _, _ => by
    unfold loadSequence
    exact .ret trivial
  | _, _ :: _, hf, h => by
    unfold loadSequence
    exact .bind (loadStmt_ends hf h.1) fun n hn => .bind (ends_append hf hn.1) fun _ _ =>
      .bind (loadSequence_ends hf h.2) fun ns hns => .ret ⟨hn.1, hns⟩

theorem loadBlock_ends {here : Place} : ∀ {functions : List FunctionId} {statements : List Stmt},
    here.function ∈ functions → Stmt.AllWithin b statements →
      Ends (Sound b functions) (loadBlock here statements) (Node.AllWithin b) (Reports b)
  | _, [], _, _ => by
    unfold loadBlock
    exact .ret trivial
  | _, _ :: _, hf, h => by
    unfold loadBlock
    exact .bind (loadStmt_ends hf h.1) fun n hn => .bind (ends_appendDecl hf hn.1) fun _ _ =>
      .bind (loadBlock_ends hf h.2) fun ns hns => .ret ⟨hn.1, hns⟩

end

theorem sound_initial : Sound b [0] {} where
  there := by simp [FunctionTable.initial, FunctionTable.size]
  numbered {f r} hr := by
    cases f with
    | zero =>
      obtain rfl := Option.some.inj hr
      rfl
    | succ f => cases hr
  outward {f g r} hr hp := by
    cases f with
    | zero =>
      obtain rfl := Option.some.inj hr
      cases hp
    | succ f => cases hr
  entries := by
    rintro f n ⟨r, hr, hn⟩
    cases f with
    | zero =>
      obtain rfl := Option.some.inj hr
      cases hn
    | succ f => cases hr

/-- Loading ends with a sound table or with the report of a fault. -/
theorem load_ends {program : Program} (h : Stmt.AllWithin b program) :
    Ends (Sound b [0]) (load program) (fun table => Sound b [0] { table }) (Reports b) := by
  intro s hs
  have hmain : (⟨0, false⟩ : Place).function ∈ [0] := List.mem_cons_self
  have hsequence := loadSequence_ends hmain h s hs
  unfold load
  rw [EStateM.run_bind]
  cases hrun : (loadSequence ⟨0, false⟩ program).run s with
  | ok nodes s' =>
    rw [hrun] at hsequence
    exact ⟨hsequence.2.aside rfl, hsequence.2.aside rfl⟩
  | error e s' =>
    rw [hrun] at hsequence
    exact hsequence

end Loading

/-! ## Lowering -/

namespace Lowering

def Reports (b : Bounds) : CompileError → Prop
  | .unknownOperator op _ =>
    b.arithmetic op ∧ Instruction.arithmetic? op = none ∨ b.comparison op ∧ Instruction.comparison? op = none
  | .unboundIdentifier .. => True
  | _ => False

def Ends (b : Bounds) {α : Type} (x : Lowering α) : Prop :=
  Bies.Ends (fun _ => True) x (fun _ => True) (Reports b)

variable {b : Bounds} {c : Context} {α β : Type} {x : Lowering α}

namespace Ends

theorem bind {f : α → Lowering β} (hx : Ends b x) (hf : ∀ a, Ends b (f a)) : Ends b (x >>= f) :=
  Bies.Ends.bind hx fun a _ => hf a

theorem ret {a : α} : Ends b (Pure.pure a) := Bies.Ends.ret trivial

theorem read : Ends b get := Bies.Ends.read

theorem change {g : State → State} : Ends b (modify g) := Bies.Ends.change fun _ _ => trivial

theorem changeGet {g : State → α × State} : Ends b (modifyGet g) :=
  Bies.Ends.changeGet fun _ _ => ⟨trivial, trivial⟩

end Ends

theorem ends_visit (id : NodeId) (v : Visit) : Ends b (visit id v) := .change

theorem ends_once {id : NodeId} {x : Lowering Code} (hx : Ends b x) : Ends b (once id x) := by
  refine .bind .read fun _ => .bind (ends_visit id _) fun _ => ?_
  split
  · exact .ret
  · exact hx

theorem ends_loadName (name : String) (span : Span) : Ends b (loadName c name span) := by
  unfold loadName
  refine .bind .read fun s => ?_
  split
  · exact .ret
  · split
    · exact .ret
    · split
      · exact .bind .changeGet fun _ => .bind .change fun _ => .ret
      · exact .fail trivial

theorem ends_finishCall (tag : Tag) (name : String) (args : List Node) : Ends b (finishCall c tag name args) := by
  unfold finishCall
  refine .bind .read fun s => ?_
  split
  · split
    · exact .ret
    · exact .bind .changeGet fun _ => .ret
  · refine .bind (ends_loadName name tag.span) fun _ => ?_
    dsimp only
    split
    · exact .bind .change fun _ => .ret
    · exact .ret

theorem ends_arithmeticInstruction {op : String} (hop : b.arithmetic op) (tag : Tag) (left right : Node) :
    Ends b (arithmeticInstruction c tag left op right) := by
  unfold arithmeticInstruction
  split
  next h => exact .fail (.inl ⟨hop, h⟩)
  next => exact .bind .read fun _ => .ret

mutual

theorem literal_of_valueWithin : ∀ {n : Node}, n.isLiteral = true → n.ValueWithin b → ∃ x, literal n = .ok x
  | .int .., _, _ | .float .., _, _ | .str .., _, _ => ⟨_, rfl⟩
  | .list .., _, h => by
    obtain ⟨xs, hxs⟩ := literals_of_itemsWithin h
    exact ⟨.list xs, by rw [literal, hxs]; rfl⟩

theorem literals_of_itemsWithin : ∀ {items : List Node}, Node.ItemsWithin b items → ∃ xs, literals items = .ok xs
  | [], _ => ⟨[], rfl⟩
  | _ :: _, h => by
    obtain ⟨x, hx⟩ := literal_of_valueWithin h.1 h.2.1
    obtain ⟨xs, hxs⟩ := literals_of_itemsWithin h.2.2
    exact ⟨x :: xs, by rw [literals, hx, hxs]; rfl⟩

end

mutual

theorem lowerValue_ends : ∀ {n : Node}, n.ValueWithin b → Ends b (lowerValue c n)
  | .ident tag name, _ => by
    unfold lowerValue
    exact .bind (ends_visit _ _) fun _ => .bind (ends_loadName name tag.span) fun _ => .ret
  | .binary tag left op right, h => by
    unfold lowerValue
    exact .bind (ends_visit _ _) fun _ => .bind (ends_arithmeticInstruction h.1 tag left right) fun _ =>
      .bind (lowerValue_ends h.2.2) fun _ => .bind (lowerValue_ends h.2.1) fun _ => .ret
  | .comparison .., h => by
    unfold lowerValue
    refine .bind (ends_visit _ _) fun _ => ?_
    split
    next hop => exact .fail (.inr ⟨h.1, hop⟩)
    next => exact .bind (lowerValue_ends h.2.2) fun _ => .bind (lowerValue_ends h.2.1) fun _ => .ret
  | .call tag name args, h => by
    unfold lowerValue
    exact .bind (ends_visit _ _) fun _ => .bind (lowerValues_ends h) fun _ =>
      .bind (ends_finishCall tag name args) fun _ => .ret
  | .access tag name _, h => by
    unfold lowerValue
    exact .bind (ends_visit _ _) fun _ => .bind (lowerValue_ends h) fun _ =>
      .bind (ends_loadName name tag.span) fun _ => .ret
  | .lambda .., _ => by
    unfold lowerValue
    exact .bind (ends_visit _ _) fun _ => .ret
  | .int .., h | .float .., h | .str .., h | .list .., h => by
    obtain ⟨x, hx⟩ := literal_of_valueWithin rfl h
    unfold lowerValue
    refine .bind (ends_visit _ _) fun _ => ?_
    rw [hx]
    exact .ret

theorem lowerValues_ends : ∀ {ns : List Node}, Node.ValuesWithin b ns → Ends b (lowerValues c ns)
  | [], _ => by
    unfold lowerValues
    exact .ret
  | _ :: _, h => by
    unfold lowerValues
    exact .bind (lowerValue_ends h.1) fun _ => .bind (lowerValues_ends h.2) fun _ => .ret

end

theorem ends_finishChain (chain : Chain) : Ends b (finishChain chain) := by
  unfold finishChain
  rw [Chain.code_eq_layout]
  exact .ret

theorem ends_skip (n : Node) : Ends b (skip c n) :=
  .bind .change fun _ => .bind .change fun _ => .ret

mutual

theorem lowerStmt_ends : ∀ {n : Node}, n.Within b → Ends b (lowerStmt c n)
  | .decl .., h => by
    unfold lowerStmt
    exact ends_once (.bind (lowerValue_ends h) fun _ => .bind .changeGet fun _ => .ret)
  | .letIn .., h => by
    unfold lowerStmt
    exact ends_once (.bind (lowerStmts_ends h.1) fun _ => .bind (lowerStmt_ends h.2) fun _ => .ret)
  | .block .., h => by
    unfold lowerStmt
    exact ends_once (lowerStmts_ends h)
  | .ifThen .., h => by
    unfold lowerStmt
    exact ends_once (.bind (lowerValue_ends h.1) fun _ => .bind (lowerStmt_ends h.2) fun _ => ends_finishChain _)
  | .ifElse .., h => by
    unfold lowerStmt
    exact ends_once (.bind (lowerValue_ends h.1) fun _ => .bind (lowerStmt_ends h.2.1) fun _ =>
      .bind (lowerStmt_ends h.2.2) fun _ => ends_finishChain _)
  | .ifElseIf .., h => by
    unfold lowerStmt
    exact ends_once (.bind (lowerValue_ends h.1) fun _ => .bind (lowerStmt_ends h.2.1) fun _ =>
      .bind (lowerLink_ends h.2.2.1 h.2.2.2) fun _ => ends_finishChain _)
  | .print .., h => by
    unfold lowerStmt
    exact ends_once (.bind (lowerValues_ends h) fun _ => .ret)
  | .ret .., h => by
    unfold lowerStmt
    exact ends_once (.bind (lowerValue_ends h) fun _ => .ret)
  | .call .., h | .binary .., h | .comparison .., h => by
    unfold lowerStmt
    exact ends_once (lowerValue_ends h)
  | .funDecl .., _ => by
    unfold lowerStmt
    exact ends_once .ret
  | .int .., _ | .float .., _ | .str .., _ | .ident .., _ | .lambda .., _ | .access .., _ | .list .., _ => by
    unfold lowerStmt
    exact ends_once (ends_skip _)

theorem lowerStmts_ends : ∀ {ns : List Node}, Node.AllWithin b ns → Ends b (lowerStmts c ns)
  | [], _ => by
    unfold lowerStmts
    exact .ret
  | _ :: _, h => by
    unfold lowerStmts
    exact .bind (lowerStmt_ends h.1) fun _ => .bind (lowerStmts_ends h.2) fun _ => .ret

theorem lowerLink_ends : ∀ {n : Node}, n.isConditional = true → n.Within b → Ends b (lowerLink c n)
  | .ifThen .., _, h => by
    unfold lowerLink
    exact .bind (ends_visit _ _) fun _ => .bind (lowerValue_ends h.1) fun _ => .bind (lowerStmt_ends h.2) fun _ => .ret
  | .ifElse .., _, h => by
    unfold lowerLink
    exact .bind (ends_visit _ _) fun _ => .bind (lowerValue_ends h.1) fun _ => .bind (lowerStmt_ends h.2.1) fun _ =>
      .bind (lowerStmt_ends h.2.2) fun _ => .ret
  | .ifElseIf .., _, h => by
    unfold lowerLink
    exact .bind (ends_visit _ _) fun _ => .bind (lowerValue_ends h.1) fun _ => .bind (lowerStmt_ends h.2.1) fun _ =>
      .bind (lowerLink_ends h.2.2.1 h.2.2.2) fun _ => .ret

end

theorem lowerSequence_ends (later : List Node) : ∀ {ns : List Node}, (∀ n ∈ ns, n.Within b) →
    Ends b (lowerSequence c later ns)
  | [], _ => by
    unfold lowerSequence
    exact .ret
  | n :: rest, h => by
    have hrest := lowerSequence_ends later fun m hm => h m (List.mem_cons_of_mem n hm)
    unfold lowerSequence
    refine .bind .read fun s => ?_
    split
    · exact hrest
    · split
      · exact .bind (ends_visit _ _) fun _ => hrest
      · exact .bind (lowerStmt_ends (h n List.mem_cons_self)) fun _ => .bind hrest fun _ => .ret

theorem lowerFunctions_ends {table : FunctionTable} {options : Options} : ∀ {records : List FunctionRecord},
    (∀ r ∈ records, ∀ n ∈ r.sequence, n.Within b) → Ends b (lowerFunctions table options records)
  | [], _ => by
    unfold lowerFunctions
    exact .ret
  | r :: rest, h => by
    unfold lowerFunctions lowerFunction
    refine .bind (.bind .change fun _ => .bind (lowerSequence_ends _ (h r List.mem_cons_self)) fun _ => .ret) fun _ => ?_
    exact .bind (lowerFunctions_ends fun r' hr' => h r' (List.mem_cons_of_mem r hr')) fun _ => .ret

/-- Lowering the statements of a program fails with an operator or a name and with nothing else. -/
theorem lower_ends {table : FunctionTable} (options : Options) (h : ∀ {f n}, table.Holds f n → n.Within b) :
    Ends b (lower table options) := by
  refine .bind (lowerFunctions_ends fun r hr n hn => ?_) fun _ => .bind .read fun _ => .ret
  obtain ⟨f, hf⟩ := List.getElem?_of_mem hr
  exact h ⟨r, hf, hn⟩

end Lowering

/-! ## Compiling -/

theorem Ends.result {α σ : Type} {I : σ → Prop} {x : EStateM CompileError σ α} {P : α → Prop}
    {E : CompileError → Prop} (events : σ → List Event) {s : σ} (hx : Ends I x P E) (hs : I s) :
    match (Outcome.ofRun events x s).result with
    | .ok a => P a
    | .error e => E e := by
  have hx := hx s hs
  unfold Outcome.ofRun
  cases h : x.run s with
  | ok a s' =>
    rw [h] at hx
    exact hx.1
  | error e s' =>
    rw [h] at hx
    exact hx

variable {b : Bounds} {program : Program} {table : FunctionTable} {options : Options} {e : CompileError}

theorem FunctionTable.reports_of_ofProgram (h : Stmt.AllWithin b program) (he : (ofProgram program).result = .error e) :
    Loading.Reports b e := by
  have := (Loading.load_ends h).result Loading.State.events Loading.sound_initial
  rwa [show (Outcome.ofRun _ _ _).result = _ from he] at this

theorem FunctionTable.sound_of_ofProgram (h : Stmt.AllWithin b program) (ht : (ofProgram program).result = .ok table) :
    Loading.Sound b [0] { table } := by
  have := (Loading.load_ends h).result Loading.State.events Loading.sound_initial
  rwa [show (Outcome.ofRun _ _ _).result = _ from ht] at this

theorem Assembly.reports_of_ofTable (h : Stmt.AllWithin b program)
    (ht : (FunctionTable.ofProgram program).result = .ok table) (he : (ofTable table options).result = .error e) :
    Lowering.Reports b e := by
  have := (Lowering.lower_ends options (FunctionTable.sound_of_ofProgram h ht).entries).result
    Lowering.State.events (s := { frames := .ofTable table }) trivial
  rwa [show (Outcome.ofRun _ _ _).result = _ from he] at this

theorem compileTree_eq_error {source : List Char} {tree : Tree}
    (he : (compileTree options source tree).result = .error e) :
    (FunctionTable.ofProgram (.ofTree source tree)).result = .error e ∨
      ∃ table, (FunctionTable.ofProgram (.ofTree source tree)).result = .ok table ∧
        (Assembly.ofTable table options).result = .error e := by
  unfold compileTree Outcome.andThen at he
  split at he
  next table ht => exact .inr ⟨table, ht, he⟩
  next e' ht =>
    obtain rfl := Except.error.inj he
    exact .inl ht

theorem Lowering.Reports.operator {op : String} {span : Span} (h : Reports .parsed (.unknownOperator op span)) :
    op = "%" ∨ op = "!=" := by
  rcases h with ⟨hop, hnone⟩ | ⟨hop, hnone⟩
  · have harithmetic : ∀ op ∈ Parser.arithmeticOperators, Instruction.arithmetic? op = none → op = "%" := by
      decide
    exact .inl (harithmetic op hop hnone)
  · have hcomparison : ∀ op ∈ Parser.comparisonOperators, Instruction.comparison? op = none → op = "!=" := by
      decide
    exact .inr (hcomparison op hop hnone)

/-- The ways in which a compilation can fail. -/
theorem compileTree_failures (options : Options) (source : List Char) (tree : Tree) :
    (∀ error, (compileTree options source tree).result ≠ .error (.internal error)) ∧
    (∀ table, (FunctionTable.ofProgram (.ofTree source tree)).result = .ok table →
      ∀ fault span, (Assembly.ofTable table options).result ≠ .error (.malformed fault span)) ∧
    (Tree.parse source = .ok tree →
      (∀ e, (FunctionTable.ofProgram (.ofTree source tree)).result = .error e →
        ∃ fault span, e = .malformed fault span ∧
          (fault.construct, fault.reason) ∈ [("integer", "out of range"), ("float", "not a number"),
            ("list literal", "items must be literals"),
            ("function declaration", "`main` is reserved for top-level statements")]) ∧
      (byteLength source < 2 ^ 32 → ∀ op span,
        (compileTree options source tree).result = .error (.unknownOperator op span) → op = "%" ∨ op = "!=")) := by
  have hwithin : Stmt.AllWithin {} (Program.ofTree source tree) := Program.ofTree_within tree
  refine ⟨fun error he => ?_, fun table ht fault span he => ?_,
    fun hparse => ⟨fun e he => ?_, fun hsize op span he => ?_⟩⟩
  · rcases compileTree_eq_error he with he | ⟨table, ht, he⟩
    · obtain ⟨_, _, h, _⟩ := FunctionTable.reports_of_ofProgram hwithin he
      cases h
    · exact Assembly.reports_of_ofTable hwithin ht he
  · exact Assembly.reports_of_ofTable hwithin ht he
  · have hparsed : Stmt.AllWithin { fault := Fault.OfNumber } (Program.ofTree source tree) :=
      Program.within_of_parse hparse (.inl rfl) (.inr rfl) fun _ _ =>
        ⟨fun _ => trivial, fun _ _ _ => trivial, fun _ _ _ => trivial⟩
    obtain ⟨fault, span, rfl, hfault⟩ := FunctionTable.reports_of_ofProgram hparsed he
    refine ⟨fault, span, rfl, ?_⟩
    rcases hfault with (rfl | rfl) | rfl | rfl <;> simp [Fault.construct, Fault.reason]
  · have hparsed := Program.within_parsed hparse hsize
    rcases compileTree_eq_error he with he | ⟨table, ht, he⟩
    · obtain ⟨_, _, h, _⟩ := FunctionTable.reports_of_ofProgram hparsed he
      cases h
    · exact (Assembly.reports_of_ofTable hparsed ht he).operator

/-- A list with a name in it is not loaded; a remainder is loaded and not lowered. -/
theorem compileTree_failures_of_parse :
    (∃ tree e, Tree.parse "print([1, n])".toList = .ok tree ∧
      (FunctionTable.ofProgram (.ofTree "print([1, n])".toList tree)).result = .error e ∧
      ∃ fault span, e = .malformed fault span ∧
        (fault.construct, fault.reason) ∈ [("integer", "out of range"), ("float", "not a number"),
          ("list literal", "items must be literals"),
          ("function declaration", "`main` is reserved for top-level statements")]) ∧
    ∃ tree op span, Tree.parse "print(n % 2)".toList = .ok tree ∧ byteLength "print(n % 2)".toList < 2 ^ 32 ∧
      (compileTree {} "print(n % 2)".toList tree).result = .error (.unknownOperator op span) ∧
      (op = "%" ∨ op = "!=") := by
  constructor
  · obtain ⟨tree, hparse, hp⟩ := Tree.exists_of_parse "print([1, n])".toList (p := fun tree =>
      match (FunctionTable.ofProgram (.ofTree "print([1, n])".toList tree)).result with
      | .error _ => true
      | .ok _ => false) (by decide +kernel)
    split at hp
    next e he => exact ⟨tree, e, hparse, he, ((compileTree_failures {} _ tree).2.2 hparse).1 e he⟩
    next => cases hp
  · obtain ⟨tree, hparse, hp⟩ := Tree.exists_of_parse "print(n % 2)".toList (p := fun tree =>
      match (compileTree {} "print(n % 2)".toList tree).result with
      | .error (.unknownOperator ..) => true
      | _ => false) (by decide +kernel)
    split at hp
    next op span he =>
      exact ⟨tree, op, span, hparse, by decide, he,
        ((compileTree_failures {} _ tree).2.2 hparse).2 (by decide) op span he⟩
    next => cases hp

end Bies
