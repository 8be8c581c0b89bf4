import Bies.Compile
import Bies.Proofs.Renumbering

/-!
# Programs with other arithmetic of the same value

Arithmetic on whole numbers is done while a program is loaded. Programs are alike if they have the same
constructs, except that in any place there may be different arithmetic of the same value. Loading gives them
tables that are alike up to the numbers of nodes, and lowering gives the tables the same code.
-/

namespace Bies

open List

/-! ## Programs -/

inductive Expr.Whole : Span → Expr → Int64 → Prop where
  | int {span : Span} {n : Int64} : Whole span (.int span n) n
  | arithmetic {span s s' : Span} {left right : Expr} {op : String} {a b n : Int64} : Whole s left a →
    Whole s' right b →
    Number.combine? (.int a) op (.int b) = some (.int n) → Whole span (.arithmetic span left op right) n

section
variable (spans : Span → Span → Prop)

mutual

inductive Expr.Alike : Expr → Expr → Prop where
  | paired {e e'} : e.Paired spans IsPlain Expr.Alike Body.Alike e' → Expr.Alike e e'
  /-- Arithmetic of the same value. -/
  | whole {s s' e e' n} : spans s s' → e.Whole s n → e'.Whole s' n → Expr.Alike e e'

inductive Body.Alike : Body → Body → Prop where
  | paired {b b'} : b.Paired spans Expr.Alike Stmt.Alike b' → Body.Alike b b'

inductive Stmt.Alike : Stmt → Stmt → Prop where
  | paired {s s'} : s.Paired spans IsPlain Expr.Alike Body.Alike Stmt.Alike s' → Stmt.Alike s s'

end
end

variable {spans : Span → Span → Prop}

/-! ## Loading -/

namespace Loading

structure State.Alike (w : Renumbering spans) (s s' : State) : Prop where
  below : ∀ i i', w.pairs i i' → i < s.nextId ∧ i' < s'.nextId
  table : s.table.Alike w s'.table
  scopes : s.scopes.Alike w s'.scopes
  names_eq : s.names = s'.names

abbrev Renumbers {α : Type} (w : Renumbering spans) (P : Renumbering spans → α → α → Prop)
    (x y : Loading α) : Prop :=
  SideBySide (CompileError.Alike spans) State.Alike w P x y

variable {w : Renumbering spans} {s s' : State} {span span' : Span}

theorem State.Alike.advance (h : s.Alike w s') {i i' k k' : NodeId} (hi : s.nextId ≤ i) (hi' : s'.nextId ≤ i')
    (hk : i < k) (hk' : i' < k') :
    ∃ w', w ≤ w' ∧ w'.pairs i i' ∧ State.Alike w' { s with nextId := k } { s' with nextId := k' } := by
  have hnew : ∀ j j', w.pairs j j' → j ≠ i ∧ j' ≠ i' := fun j j' hj =>
    ⟨Nat.ne_of_lt (Nat.lt_of_lt_of_le (h.below _ _ hj).1 hi),
      Nat.ne_of_lt (Nat.lt_of_lt_of_le (h.below _ _ hj).2 hi')⟩
  have hw : w ≤ w.add hnew := fun _ _ => .inl
  refine ⟨w.add hnew, hw, .inr ⟨rfl, rfl⟩, ?_, h.table.mono hw, h.scopes.mono hw, h.names_eq⟩
  rintro j j' (hj | ⟨rfl, rfl⟩)
  · obtain ⟨hj, hj'⟩ := h.below _ _ hj
    exact ⟨Nat.lt_of_lt_of_le hj (Nat.le_trans hi (Nat.le_of_lt hk)),
      Nat.lt_of_lt_of_le hj' (Nat.le_trans hi' (Nat.le_of_lt hk'))⟩
  · exact ⟨hk, hk'⟩

theorem freshId_renumbers : Renumbers w (fun w i i' => w.pairs i i') freshId freshId := by
  refine .changeGet fun s s' hs => ?_
  obtain ⟨w', hw, hid, hs⟩ := hs.advance (Nat.le_refl _) (Nat.le_refl _) (Nat.lt_succ_self _) (Nat.lt_succ_self _)
  exact ⟨w', hw, hid, hs⟩

theorem loadExpr_of_whole {here : Place} {e : Expr} {n : Int64} (h : e.Whole span n) : ∀ s : State, ∃ i k,
    (loadExpr here e).run s = .ok (.int ⟨i, span⟩ n) { s with nextId := k } ∧ s.nextId ≤ i ∧ i < k := by
  induction h with
  | int => exact fun s => ⟨s.nextId, s.nextId + 1, rfl, Nat.le_refl _, Nat.lt_succ_self _⟩
  | @arithmetic span _ _ left right op a b n _ _ hop ihl ihr =>
    intro s
    obtain ⟨i, k, hl, hle, hlt⟩ := ihl s
    obtain ⟨j, m, hr, hle', hlt'⟩ := ihr { s with nextId := k }
    refine ⟨m, m + 1, ?_, ?_, Nat.lt_succ_self _⟩
    · generalize (⟨i, _⟩ : Tag) = t at hl
      generalize (⟨j, _⟩ : Tag) = u at hr
      have hbuild : (buildArithmetic span (.int t a) op (.int u b)).run { s with nextId := m } =
          .ok (.int ⟨m, span⟩ n) { s with nextId := m + 1 } := by
        have hknown : ∀ (tag : Tag) (n : Int64), knownNumber? s.scopes s.names (.int tag n) = some (.int n) := by
          simp [knownNumber?]
        have hrun (x : State → Loading Node) : (get >>= x).run { s with nextId := m } =
            (x { s with nextId := m }).run { s with nextId := m } := rfl
        unfold buildArithmetic
        rw [hrun]
        dsimp only
        rw [hknown, hknown]
        dsimp only [Option.bind_eq_bind, Option.bind_some]
        rw [hop]
        rfl
      rw [loadExpr, EStateM.run_bind, hl]
      dsimp only
      rw [EStateM.run_bind, hr]
      exact hbuild
    · exact Nat.le_trans (Nat.le_trans hle (Nat.le_of_lt hlt)) (Nat.le_trans hle' (Nat.le_of_lt hlt'))

theorem build_renumbers (hspan : spans span span') {make make' : Tag → Node}
    (hmake : ∀ w', w ≤ w' → ∀ t t', w'.Tags t t' → (make t).Alike w' (make' t')) :
    Renumbers w (fun w => Node.Alike w) (build span make) (build span' make') :=
  .bind freshId_renumbers fun w' hw i i' hi => .ret (hmake w' hw ⟨i, span⟩ ⟨i', span'⟩ ⟨hi, hspan⟩)

theorem declareFunction_renumbers {x x' : String} (hx : w.Names x x') {params : List String}
    (hparams : ∀ y ∈ params, IsPlain y) (parent : FunctionId) (hspan : spans span span') :
    Renumbers w (fun _ => Eq) (declareFunction parent x params span) (declareFunction parent x' params span') := by
  have hmain : x = mainName ↔ x' = mainName := hx.eq_iff (.plain (by unfold IsPlain; decide))
  unfold declareFunction
  by_cases hname : x = mainName
  · rw [if_pos hname, if_pos (hmain.mp hname)]
    exact .bind (P := fun _ _ _ => False) (.fail ⟨rfl, .some hspan⟩) fun _ _ _ _ h => h.elim
  · rw [if_neg hname, if_neg (mt hmain.mpr hname)]
    refine .changeGet fun s s' hs => ?_
    obtain ⟨hf, htable⟩ := hs.table.declare hx hparams parent
    exact ⟨w, le_rfl, hf, hs.below, htable, hs.scopes, hs.names_eq⟩

theorem append_renumbers (f : FunctionId) {n n' : Node} (hn : n.Alike w n') :
    Renumbers w (fun _ _ _ => True) (append f n) (append f n') := by
  refine .look fun s s' hs => ?_
  rw [hs.table.size_eq]
  by_cases hf : f < s'.table.size
  · rw [if_pos hf, if_pos hf]
    exact .change trivial fun s s' hs => ⟨hs.below, hs.table.append hn f, hs.scopes, hs.names_eq⟩
  · rw [if_neg hf, if_neg hf]
    exact .bind (P := fun _ _ _ => False) (.fail ⟨rfl, .none⟩) fun _ _ _ _ h => h.elim

theorem buildArithmetic_renumbers {left left' right right' : Node} (hl : left.Alike w left')
    (hr : right.Alike w right') (op : String) (hspan : spans span span') :
    Renumbers w (fun w => Node.Alike w) (buildArithmetic span left op right)
      (buildArithmetic span' left' op right') := by
  refine .look fun s s' hs => ?_
  rw [hs.names_eq, knownNumber?_eq hs.scopes _ hl, knownNumber?_eq hs.scopes _ hr]
  dsimp only
  split
  · exact build_renumbers hspan fun _ _ _ _ ht => .mk (.int ht)
  · exact build_renumbers hspan fun _ _ _ _ ht => .mk (.float ht)
  · exact build_renumbers hspan fun _ hw _ _ ht => .mk (.binary ht (hl.mono hw) (hr.mono hw))

theorem note_renumbers (e e' : Event) : Renumbers w (fun _ _ _ => True) (note e) (note e') :=
  .change trivial fun _ _ hs => ⟨hs.below, hs.table, hs.scopes, hs.names_eq⟩

theorem openScope_renumbers (kind : ScopeKind) (names : List String) :
    Renumbers w (fun _ _ _ => True) (openScope (·.push kind names)) (openScope (·.push kind names)) :=
  .change trivial fun _ _ hs => ⟨hs.below, hs.table, hs.scopes.push kind names, hs.names_eq⟩

variable (spans) in
def renumbers : Simulation where
  World := Renumbering spans
  le := (· ≤ ·)
  rel := Renumbers
  bind := .bind
  ret := .ret
  spans := spans
  names := IsPlain
  tags := Renumbering.Tags
  tags_mono hw h := ⟨hw _ _ h.1, h.2⟩
  spans_of_tags h := h.2
  nodes := Node.Alike
  nodes_mono hw := .mono hw
  nodes_iff := ⟨Node.Alike.paired, .mk⟩
  tables := FunctionTable.Alike
  tables_mono := .mono
  size_eq := FunctionTable.Alike.size_eq
  exprs := Expr.Alike spans
  bodies := Body.Alike spans
  stmts := Stmt.Alike spans
  expr h := by
    cases h with
    | paired h => exact .inl h
    | whole hspan h h' =>
      refine .inr fun w here s s' hs => ?_
      obtain ⟨t, k, hrun, hle, hlt⟩ := loadExpr_of_whole h s
      obtain ⟨t', k', hrun', hle', hlt'⟩ := loadExpr_of_whole h' s'
      obtain ⟨w', hw, hid, hs⟩ := hs.advance hle hle' hlt hlt'
      rw [hrun, hrun']
      exact ⟨w', hw, .mk (.int ⟨hid, hspan⟩), hs⟩
  body h := by
    cases h with
    | paired h => exact h
  stmt h := by
    cases h with
    | paired h => exact h
  malformed _ hspan := .fail ⟨rfl, .some hspan⟩
  freshId hspan := .bind freshId_renumbers fun _ _ _ _ hi => .ret ⟨hi, hspan⟩
  append f hn := append_renumbers f hn
  openLetIn := openScope_renumbers .letIn []
  openBlock := openScope_renumbers .block []
  openFunction := openScope_renumbers .function
  closeScope := .change trivial fun _ _ hs => ⟨hs.below, hs.table, hs.scopes.pop, hs.names_eq⟩
  declareName name hn := .change trivial fun _ _ hs => ⟨hs.below, hs.table, hs.scopes.declare name hn, hs.names_eq⟩
  declareFunction parent hname hparams hspan := declareFunction_renumbers (.plain hname) hparams parent hspan
  declareLambda parent ht hparams := declareFunction_renumbers (.lambda ht.1) hparams parent ht.2
  clear f := .change trivial fun _ _ hs => ⟨hs.below, hs.table.clear f, hs.scopes, hs.names_eq⟩
  declared _ _ := note_renumbers _ _
  lifted _ _ := note_renumbers _ _
  liftedLambda _ _ := note_renumbers _ _
  loaded _ := note_renumbers _ _
  arithmetic op hspan hl hr := buildArithmetic_renumbers hl hr op hspan
  read := .read fun _ _ hs => hs.table

end Loading

/-! ## Lowering -/

namespace Lowering

structure State.Alike (w : Renumbering spans) (s s' : State) : Prop where
  frames : s.frames.Alike w s'.frames
  visits : ∀ {i i' : NodeId}, w.pairs i i' → s.visits[i]? = s'.visits[i']?
  skipped : Forall₂ (fun n n' => spans n.span n'.span) s.skipped s'.skipped

structure Context.Alike (w : Renumbering spans) (c c' : Context) : Prop where
  table : c.table.Alike w c'.table
  options_eq : c.options = c'.options
  function_eq : c.function = c'.function
  chain_eq : c.chain = c'.chain

abbrev Renumbers {α : Type} (w : Renumbering spans) (P : α → α → Prop) (x y : Lowering α) : Prop :=
  Alongside (CompileError.Alike spans) (State.Alike w) P x y

variable {w : Renumbering spans} {c c' : Context} {fs fs' : Frames}

theorem isBuiltin_eq (hc : c.Alike w c') (hfs : fs.Alike w fs') {name : String} (hname : IsPlain name) :
    isBuiltin c fs name = isBuiltin c' fs' name := by
  have hresolve : (fs.resolve? name c.chain).isNone = (fs'.resolve? name c'.chain).isNone := by
    rw [hc.chain_eq]
    obtain ⟨h, h'⟩ | ⟨r, r', h, h', -⟩ := rel_cases (hfs.resolve? (.plain hname) c'.chain) <;> simp [h, h']
  have hget : (c.table.get? name).isNone = (c'.table.get? name).isNone := by
    obtain ⟨h, h'⟩ | ⟨r, r', h, h', -⟩ := rel_cases (hc.table.get? (.plain hname)) <;> simp [h, h']
  rw [isBuiltin, hresolve, hget, isBuiltin]

theorem isTextual_eq (hc : c.Alike w c') (hfs : fs.Alike w fs') : ∀ (limit : Nat) {n n' : Node}, n.Alike w n' →
    isTextual c fs limit n = isTextual c' fs' limit n' := by
  intro limit
  induction limit with
  | zero =>
    intro n n' _
    rfl
  | succ limit ih =>
    intro n n' hn
    cases hn.paired
    case ident name _ hname =>
      simp only [isTextual, hc.chain_eq]
      obtain ⟨h, h'⟩ | ⟨r, r', h, h', hr⟩ := rel_cases (hfs.resolve? (.plain hname) c'.chain) <;> rw [h, h']
      · rfl
      · simp only [Option.bind_some]
        obtain ⟨h, h'⟩ | ⟨v, v', h, h', hv⟩ := rel_cases hr.value <;> rw [h, h']
        · rfl
        · exact ih hv
    case binary hl hr => simp only [isTextual, ih hl, ih hr]
    case call hname _ => simp only [isTextual, isBuiltin_eq hc hfs hname]
    all_goals rfl

theorem bind_renumbers (hc : c.Alike w c') {x x' : String} (hx : w.Names x x') {v v' : Option Node}
    (hv : Option.Rel (Node.Alike w) v v') : Renumbers w Eq (Lowering.bind c x v) (Lowering.bind c' x' v') := by
  refine .changeGet fun s s' hs => ?_
  rw [hc.function_eq]
  obtain ⟨hslot, hframes⟩ := hs.frames.bind c'.function hx hv
  exact ⟨hslot, hframes, hs.visits, hs.skipped⟩

theorem loadName_renumbers (hc : c.Alike w c') {name : String} (hname : IsPlain name) {span span' : Span}
    (hspan : spans span span') : Renumbers w Eq (loadName c name span) (loadName c' name span') := by
  refine .look fun s s' hs => ?_
  rw [hc.chain_eq]
  obtain ⟨h, h'⟩ | ⟨r, r', h, h', hr⟩ :=
    rel_cases (hs.frames.resolve? (.plain hname) c'.chain) <;> rw [h, h'] <;> dsimp only
  · obtain ⟨h, h'⟩ | ⟨r, r', h, h', hr⟩ :=
      rel_cases (hc.table.get? (.plain hname)) <;> rw [h, h'] <;> dsimp only
    · rw [hc.options_eq]
      cases c'.options.unbound with
      | reject => exact .fail ⟨rfl, .some hspan⟩
      | implicitBinding =>
        refine .bind (bind_renumbers hc (.plain hname) .none) ?_
        rintro slot _ rfl
        exact .bind (P := Eq) (.change rfl fun _ _ hs => ⟨hs.frames, hs.visits, hs.skipped⟩) fun _ _ _ => .ret rfl
    · exact .ret (congrArg _ hr.id_eq)
  · exact .ret (by rw [hr.frame_eq, hr.slot_eq])

theorem arithmeticInstruction_renumbers (hc : c.Alike w c') {left left' right right' : Node} (hl : left.Alike w left')
    (hr : right.Alike w right') (op : String) {t t' : Tag} (ht : w.Tags t t') :
    Renumbers w Eq (arithmeticInstruction c t left op right) (arithmeticInstruction c' t' left' op right') := by
  unfold arithmeticInstruction
  cases Instruction.arithmetic? op with
  | none => exact .fail ⟨rfl, .some ht.2⟩
  | some i =>
    refine .look fun s s' hs => ?_
    dsimp only
    rw [isTextual_eq hc hs.frames _ hl, isTextual_eq hc hs.frames _ hr]
    exact .ret rfl

theorem parameterValues_alike (hc : c.Alike w c') (hfs : fs.Alike w fs') {r r' : FunctionRecord} (hr : r.Alike w r')
    {args args' : List Node} (hargs : Forall₂ (Node.Alike w) args args') :
    Forall₂ (Option.Rel (Node.Alike w)) (parameterValues c fs r args) (parameterValues c' fs' r' args') := by
  unfold parameterValues FunctionRecord.arity
  rw [hr.params_eq, hc.options_eq]
  refine rel_map (fun i _ hi => ?_) (forall₂_same.mpr fun _ _ => rfl)
  obtain rfl := hi
  cases c'.options.callee with
  | callArguments => exact forall₂_getElem? hargs i
  | callerPrefix =>
    dsimp only
    rw [hc.function_eq]
    obtain ⟨h, h'⟩ | ⟨frame, frame', h, h', hframe⟩ := rel_cases (hfs.get? c'.function) <;> rw [h, h']
    · exact .none
    · exact hframe.value? i

theorem finishCall_renumbers (hc : c.Alike w c') {t t' : Tag} (ht : w.Tags t t') {name : String} (hname : IsPlain name)
    {args args' : List Node} (hargs : Forall₂ (Node.Alike w) args args') :
    Renumbers w Eq (finishCall c t name args) (finishCall c' t' name args') := by
  refine .look fun s s' hs => ?_
  rw [isBuiltin_eq hc hs.frames hname]
  by_cases hbuiltin : isBuiltin c' s'.frames name
  · rw [if_pos hbuiltin, if_pos hbuiltin]
    by_cases hlen : name = lenName
    · rw [if_pos hlen, if_pos hlen]
      exact .ret rfl
    · rw [if_neg hlen, if_neg hlen]
      have hempty : args.isEmpty = args'.isEmpty := by cases hargs <;> rfl
      rw [hempty]
      refine .bind (bind_renumbers hc (.input ht.1) (.some (.mk (.call ht hname hargs)))) ?_
      rintro slot _ rfl
      exact .ret rfl
  · rw [if_neg hbuiltin, if_neg hbuiltin]
    refine .bind (loadName_renumbers hc hname ht.2) ?_
    rintro i _ rfl
    rw [hargs.length_eq]
    obtain ⟨h, h'⟩ | ⟨r, r', h, h', hr⟩ := rel_cases (hc.table.get? (.plain hname)) <;> rw [h, h']
    · exact .ret rfl
    · refine .bind (P := Eq) (.change rfl fun s s' hs => ⟨?_, hs.visits, hs.skipped⟩) fun _ _ _ => .ret rfl
      rw [hr.id_eq]
      exact hs.frames.seed r'.id (parameterValues_alike hc hs.frames hr hargs)

theorem visit_renumbers {t t' : Tag} (ht : w.Tags t t') (v : Visit) :
    Renumbers w (fun _ _ => True) (visit t.id v) (visit t'.id v) := by
  refine .change trivial fun s s' hs => ⟨hs.frames, fun {i i'} hi => ?_, hs.skipped⟩
  dsimp only
  have hsame : (t.id = i) = (t'.id = i') := propext (w.unique ht.1 hi)
  simp only [Std.TreeMap.getElem?_insert, Nat.compare_eq_eq, hsame, hs.visits hi]

def renumbers {table table' : FunctionTable} (htable : table.Alike w table') (options : Options) :
    Simulation table table' options options where
  rel := Renumbers w
  bind := .bind
  ret := .ret
  tags := w.Tags
  names := IsPlain
  nodes := Node.Alike w
  labels := w.Names
  contexts := Context.Alike w
  skips := Forall₂ fun n n' => spans n.span n'.span
  same := Eq
  same_refl _ := rfl
  isRet_eq := @Instruction.isRet_congr
  paired := Node.Alike.paired
  ids ht hu := decide_eq_decide.mpr (w.unique ht.1 hu.1)
  records := htable.imp fun _ _ hr => hr.toPaired
  context f := ⟨htable, rfl, rfl, htable.chain_eq f⟩
  malformed _ ht := .fail ⟨rfl, .some ht.2⟩
  unknownOperator _ ht := .fail ⟨rfl, .some ht.2⟩
  notConditional _ := .fail ⟨rfl, .none⟩
  read := .read fun _ _ hs => ⟨fun ht => hs.visits ht.1, hs.skipped⟩
  visit v ht := visit_renumbers ht v
  start _ _ _ _ := .change trivial fun _ _ hs => ⟨hs.frames, hs.visits, hs.skipped⟩
  skip _ hn := by
    refine .bind (P := Eq) (.change rfl fun _ _ hs => ⟨hs.frames, hs.visits, hs.skipped⟩) fun _ _ _ => ?_
    refine .bind (P := Eq) (.change rfl fun _ _ hs => ⟨hs.frames, hs.visits, ?_⟩) fun _ _ _ => .ret rfl
    exact rel_append hs.skipped (.cons hn.paired.tags_tag.2 .nil)
  bindName hc hname hv := bind_renumbers hc (.plain hname) (.some hv)
  loadName hc hname ht := loadName_renumbers hc hname ht.2
  arithmetic op hc ht hl hr := arithmeticInstruction_renumbers hc hl hr op ht
  finishCall hc ht hname hargs := finishCall_renumbers hc ht hname hargs

end Lowering

theorem FunctionCode.flatMap_lines_eq {labels : String → String → Prop} {fs fs' : List FunctionCode}
    (h : Forall₂ (FunctionCode.Paired labels Eq) fs fs') : fs.flatMap lines = fs'.flatMap lines := by
  induction h with
  | nil => rfl
  | @cons f f' _ _ hf _ ih =>
    have hcode : f.code = f'.code := forall₂_eq_eq_eq ▸ hf.code
    rw [List.flatMap_cons, List.flatMap_cons, ih, FunctionCode.lines, hf.id_eq, hf.arity_eq, hf.parent_eq, hcode]
    rfl

def Program.assemble (options : Options) (program : Program) : Outcome Assembly :=
  (FunctionTable.ofProgram program).andThen fun table => Assembly.ofTable table options

theorem FunctionTable.ofProgram_alike {program program' : Program} (h : Forall₂ (Stmt.Alike spans) program program') :
    (ofProgram program).Agree (CompileError.Alike spans) (fun t t' => ∃ w : Renumbering spans, t.Alike w t')
      (ofProgram program') := by
  let w : Renumbering spans := ⟨fun _ _ => False, False.elim⟩
  have hstart : Loading.State.Alike w {} {} := ⟨fun _ _ => False.elim, .initial, .nil, rfl⟩
  have hload := SideBySide.outcome ((Loading.renumbers spans).load (w := w) h) Loading.State.events hstart
  exact hload.imp (fun _ _ he => he) fun _ _ ⟨w', _, htable⟩ => ⟨w', htable⟩

/-- Programs that are alike have the same lines of code, or errors that are alike. -/
theorem Program.assemble_alike (options : Options) {program program' : Program}
    (h : Forall₂ (Stmt.Alike spans) program program') :
    (program.assemble options).Agree (CompileError.Alike spans)
      (fun a b => a.lines = b.lines ∧ Forall₂ (fun n n' => spans n.span n'.span) a.skipped b.skipped)
      (program'.assemble options) := by
  refine (FunctionTable.ofProgram_alike h).andThen ?_
  rintro table table' ⟨w', htable⟩
  have hframes : Lowering.State.Alike w' { frames := .ofTable table } { frames := .ofTable table' } :=
    ⟨.ofTable htable, fun _ => rfl, .nil⟩
  have hlower := (Lowering.renumbers htable options).lower.outcome Lowering.State.events hframes
  exact hlower.imp (fun _ _ he => he) fun a b hab => ⟨FunctionCode.flatMap_lines_eq hab.1, hab.2⟩

end Bies
