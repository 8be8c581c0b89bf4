import Bies.Proofs.Deferral
import Bies.Proofs.Failures
import Bies.Proofs.Slots

/-!
# Branches

The jumps of a function go forward and stay inside its code, and the code has one jump on a false value for
each condition among the own nodes of the function. A condition stands in one place only, so none is lowered
twice, and none is put off.
-/

namespace Bies

def Instruction.isBf : Instruction → Bool
  | .bf _ => true
  | _ => false

namespace Code

def branches (code : Code) : Nat := code.countP Instruction.isBf

theorem branches_append (a b : Code) : branches (a ++ b) = branches a + branches b := List.countP_append

theorem Straight.branches {code : Code} (h : Straight code) : code.branches = 0 := by
  refine List.countP_eq_zero.mpr fun i hi hbf => ?_
  have hstraight := h i hi
  cases i <;> simp [Instruction.isBf, Instruction.isStraight] at hbf hstraight

end Code

/-- Jumps go forward, at most to the end, and in `main` not beyond the last instruction. -/
def FunctionCode.JumpsInside (f : FunctionCode) : Prop :=
  ∀ {index : Nat} {i : Instruction} {offset : Int}, f.code[index]? = some i → i.offset? = some offset →
    0 < offset ∧ index + offset ≤ f.code.length ∧ (f.id = 0 → index + offset < f.code.length)

/-! ## Conditions among nodes -/

namespace Node

/-- The conditions among the nodes and inside them, without those in the bodies of lambdas. -/
def conditionals (nodes : List Node) : List Node := (insideAll false nodes).filter isConditional

theorem conditionals_append (a b : List Node) : conditionals (a ++ b) = conditionals a ++ conditionals b := by
  rw [conditionals, insideAll_append, List.filter_append]
  rfl

theorem conditionals_cons (n : Node) (rest : List Node) :
    conditionals (n :: rest) = conditionals [n] ++ conditionals rest := conditionals_append [n] rest

theorem conditionals_singleton {n : Node} (h : n.isLambda = false) :
    conditionals [n] = [n].filter isConditional ++ conditionals n.children := by
  rw [conditionals, insideAll, insideAll, List.append_nil, inside_eq false h, ← List.singleton_append,
    List.filter_append]
  rfl

section
variable {b : Bounds}

mutual

theorem conditionals_value : ∀ {n : Node}, n.ValueWithin b → conditionals [n] = []
  | .binary _ left _ right, h => by
    rw [conditionals_singleton rfl, children, conditionals_cons, conditionals_value h.2.1, conditionals_value h.2.2]
    rfl
  | .comparison _ left _ right, h => by
    rw [conditionals_singleton rfl, children, conditionals_cons, conditionals_value h.2.1, conditionals_value h.2.2]
    rfl
  | .call _ _ args, h => by
    rw [conditionals_singleton rfl, children, conditionals_values h]
    rfl
  | .access _ _ index, h => by
    rw [conditionals_singleton rfl, children, conditionals_value (n := index) h]
    rfl
  | .list _ items, h => by
    rw [conditionals_singleton rfl, children, conditionals_items h]
    rfl
  | .int .., _ | .float .., _ | .str .., _ | .ident .., _ | .lambda .., _ => rfl

theorem conditionals_values : ∀ {nodes : List Node}, ValuesWithin b nodes → conditionals nodes = []
  | [], _ => rfl
  | n :: rest, h => by
    rw [conditionals_cons, conditionals_value h.1, conditionals_values h.2, List.append_nil]

theorem conditionals_items : ∀ {nodes : List Node}, ItemsWithin b nodes → conditionals nodes = []
  | [], _ => rfl
  | n :: rest, h => by
    rw [conditionals_cons, conditionals_value h.2.1, conditionals_items h.2.2, List.append_nil]

end

end

end Node

/-! ## Code of nodes -/

namespace Lowering

open Node Code

variable {b : Bounds} {c : Context}

namespace Chain

def branches : Chain → Nat
  | .done => 0
  | .otherwise code => code.branches
  | .branch test body rest => test.branches + 1 + body.branches + rest.branches

theorem branches_layout : ∀ chain : Chain, chain.layout.branches = chain.branches
  | .done => rfl
  | .otherwise _ => rfl
  | .branch test body rest => by
    have hleave : (leave body rest rest.layout.length).branches = 0 := by
      unfold leave
      split <;> rfl
    have hbf : Code.branches (.bf (body.length + (leave body rest rest.layout.length).length + 1) ::
        (body ++ leave body rest rest.layout.length ++ rest.layout)) =
        Code.branches (body ++ leave body rest rest.layout.length ++ rest.layout) + 1 := List.countP_cons_of_pos rfl
    rw [layout, branches_append, hbf, branches_append, branches_append, hleave, branches_layout rest, branches]
    omega

end Chain

theorem value_straight (n : Node) : Gives (Plain.value c n) Straight := by
  intro s code s' hrun
  have hagree := lowerValue_tracks c n s s ⟨rfl, rfl, rfl⟩ trivial
  rw [hrun] at hagree
  cases hlower : (lowerValue c n).run s with
  | error e t =>
    rw [hlower] at hagree
    exact absurd hagree id
  | ok code' t =>
    rw [hlower] at hagree
    exact hagree.1 ▸ lowerValue_straight c n s code' t hlower

theorem values_straight (nodes : List Node) : Gives (Plain.values c nodes) Straight := by
  induction nodes with
  | nil =>
    unfold Plain.values
    exact .ret straight_nil
  | cons n rest ih =>
    unfold Plain.values
    exact .bind (value_straight n) fun a ha => .bind ih fun b hb => .ret (straight_append.mpr ⟨ha, hb⟩)

theorem finishChain_branches (chain : Chain) : Gives (finishChain chain) fun code => code.branches = chain.branches := by
  unfold finishChain
  rw [Chain.code_eq_layout]
  exact .ret chain.branches_layout

def Branching (nodes : List Node) (code : Code) : Prop := code.branches = (conditionals nodes).length

theorem Branching.append {m k : List Node} {x y : Code} (hx : Branching m x) (hy : Branching k y) :
    Branching (m ++ k) (x ++ y) := by
  rw [Branching, branches_append, conditionals_append, List.length_append, hx, hy]

theorem branching_straight {nodes : List Node} {code : Code} (hnodes : conditionals nodes = []) (h : Straight code) :
    Branching nodes code := by
  rw [Branching, hnodes, h.branches, List.length_nil]

theorem Branching.around {n : Node} {code : Code} (hl : n.isLambda = false) (hn : n.isConditional = false)
    (h : Branching n.children code) : Branching [n] code := by
  rw [Branching, conditionals_singleton hl, List.filter_cons_of_neg (by simp [hn]), h]
  rfl

theorem branching_chain {n : Node} {chain : Chain} {nodes : List Node} (hn : n.isConditional = true)
    (hl : n.isLambda = false) (hc : n.children = nodes) (h : chain.branches = (conditionals nodes).length + 1) :
    chain.branches = (conditionals [n]).length := by
  rw [conditionals_singleton hl, List.filter_cons_of_pos hn, hc, h]
  simp [Nat.add_comm]

theorem branches_branch {test body : Node} {t x : Code} {nodes : List Node} {rest : Chain}
    (ht : Straight t) (htest : test.ValueWithin b) (hx : Branching [body] x)
    (hrest : rest.branches = (conditionals nodes).length) :
    (Chain.branch t x rest).branches = (conditionals (test :: body :: nodes)).length + 1 := by
  rw [conditionals_cons test, conditionals_value htest, conditionals_cons body, List.nil_append, List.length_append,
    Chain.branches, ht.branches, hx, hrest]
  omega

mutual

theorem stmt_branching : ∀ {n : Node}, n.Within b → Gives (Plain.stmt c n) (Branching [n])
  | .decl _ _ _ value, h => by
    unfold Plain.stmt
    refine .bind (value_straight value) fun x hx => .bind_any fun slot => .ret ?_
    exact .around rfl rfl (branching_straight (conditionals_value h)
      (straight_append.mpr ⟨hx, straight_singleton.mpr rfl⟩))
  | .letIn _ decls body, h => by
    unfold Plain.stmt
    exact .bind (stmts_branching h.1) fun x hx => .bind (stmt_branching h.2) fun y hy =>
      .ret (.around rfl rfl (hx.append hy))
  | .block _ statements, h => by
    unfold Plain.stmt
    exact fun s x s' hrun => .around rfl rfl (stmts_branching h s x s' hrun)
  | .ifThen _ test body, h => by
    unfold Plain.stmt
    refine .bind (value_straight test) fun t ht => .bind (stmt_branching h.2) fun x hx => ?_
    intro s code s' hrun
    rw [Branching, finishChain_branches _ s code s' hrun]
    exact branching_chain rfl rfl rfl (branches_branch ht h.1 hx rfl)
  | .ifElse _ test body other, h => by
    unfold Plain.stmt
    refine .bind (value_straight test) fun t ht => .bind (stmt_branching h.2.1) fun x hx =>
      .bind (stmt_branching h.2.2) fun y hy => ?_
    intro s code s' hrun
    rw [Branching, finishChain_branches _ s code s' hrun]
    exact branching_chain rfl rfl rfl (branches_branch ht h.1 hx hy)
  | .ifElseIf _ test body link, h => by
    unfold Plain.stmt
    refine .bind (value_straight test) fun t ht => .bind (stmt_branching h.2.1) fun x hx =>
      .bind (chain_branching h.2.2.2) fun rest hrest => ?_
    intro s code s' hrun
    rw [Branching, finishChain_branches _ s code s' hrun]
    exact branching_chain rfl rfl rfl (branches_branch ht h.1 hx hrest)
  | .print _ args, h => by
    unfold Plain.stmt
    refine .bind (values_straight args) fun x hx => .ret ?_
    exact .around rfl rfl (branching_straight (conditionals_values h)
      (straight_append.mpr ⟨hx, straight_singleton.mpr rfl⟩))
  | .ret _ value, h => by
    unfold Plain.stmt
    refine .bind (value_straight value) fun x hx => .ret (.around rfl rfl ?_)
    have hvalue : Branching [value] x := branching_straight (conditionals_value h) hx
    split
    · exact hvalue
    · exact hvalue.append (k := []) (y := [.ret]) rfl
  | .call tag name args, h => by
    unfold Plain.stmt
    exact fun s x s' hrun => branching_straight (conditionals_value h) (value_straight _ s x s' hrun)
  | .binary tag left op right, h => by
    unfold Plain.stmt
    exact fun s x s' hrun => branching_straight (conditionals_value h) (value_straight _ s x s' hrun)
  | .comparison tag left op right, h => by
    unfold Plain.stmt
    exact fun s x s' hrun => branching_straight (conditionals_value h) (value_straight _ s x s' hrun)
  | .funDecl .., _ => by
    unfold Plain.stmt
    exact .ret rfl
  | .int .., _ | .float .., _ | .str .., _ | .ident .., _ | .lambda .., _ => by
    unfold Plain.stmt skip
    exact .bind_any fun _ => .bind_any fun _ => .ret rfl
  | .access .., h | .list .., h => by
    unfold Plain.stmt skip
    exact .bind_any fun _ => .bind_any fun _ => .ret (branching_straight (conditionals_value h) straight_nil)

theorem stmts_branching : ∀ {nodes : List Node}, AllWithin b nodes → Gives (Plain.stmts c nodes) (Branching nodes)
  | [], _ => by
    unfold Plain.stmts
    exact .ret rfl
  | _ :: _, h => by
    unfold Plain.stmts
    exact .bind (stmt_branching h.1) fun x hx => .bind (stmts_branching h.2) fun y hy => .ret (hx.append hy)

theorem chain_branching : ∀ {n : Node}, n.Within b →
    Gives (Plain.chain c n) fun chain => chain.branches = (conditionals [n]).length
  | .ifThen _ test body, h => by
    unfold Plain.chain
    exact .bind (value_straight test) fun t ht => .bind (stmt_branching h.2) fun x hx =>
      .ret (branching_chain rfl rfl rfl (branches_branch ht h.1 hx rfl))
  | .ifElse _ test body other, h => by
    unfold Plain.chain
    exact .bind (value_straight test) fun t ht => .bind (stmt_branching h.2.1) fun x hx =>
      .bind (stmt_branching h.2.2) fun y hy =>
        .ret (branching_chain rfl rfl rfl (branches_branch ht h.1 hx hy))
  | .ifElseIf _ test body link, h => by
    unfold Plain.chain
    exact .bind (value_straight test) fun t ht => .bind (stmt_branching h.2.1) fun x hx =>
      .bind (chain_branching h.2.2.2) fun rest hrest =>
        .ret (branching_chain rfl rfl rfl (branches_branch ht h.1 hx hrest))
  | .decl .., _ | .letIn .., _ | .binary .., _ | .comparison .., _ | .block .., _ | .funDecl .., _ | .lambda .., _
  | .call .., _ | .print .., _ | .ret .., _ | .access .., _ | .list .., _ | .int .., _ | .float .., _ | .str .., _
  | .ident .., _ => by
    unfold Plain.chain
    exact .fail _

end

/-! ## Functions -/

theorem conditionals_kept (later : List Node) : ∀ {entries : List Node}, (∀ n ∈ entries, n.Within b) →
    conditionals (kept later entries) = conditionals entries
  | [], _ => rfl
  | n :: rest, h => by
    have ih := conditionals_kept later fun m hm => h m (List.mem_cons_of_mem n hm)
    rw [kept]
    split
    next hconsumed =>
      have hnone : conditionals [n] = [] := by
        have hn := h n List.mem_cons_self
        cases n with
        | decl tag constant name value =>
          rw [conditionals_singleton rfl, children, conditionals_value (n := value) hn]
          rfl
        | binary => exact conditionals_value hn
        | _ => cases hconsumed
      rw [ih, conditionals_cons n, hnone, List.nil_append]
    next => rw [conditionals_cons, ih, ← conditionals_cons]

theorem kept_subset (later entries : List Node) : kept later entries ⊆ entries := by
  induction entries with
  | nil => exact List.Subset.refl _
  | cons n rest ih =>
    rw [kept]
    split
    · exact fun m hm => List.mem_cons_of_mem n (ih hm)
    · exact List.cons_subset_cons n ih

theorem allWithin_of_forall : ∀ {nodes : List Node}, (∀ n ∈ nodes, n.Within b) → AllWithin b nodes
  | [], _ => trivial
  | n :: _, h => ⟨h n List.mem_cons_self, allWithin_of_forall fun m hm => h m (List.mem_cons_of_mem n hm)⟩

theorem function_branching {table : FunctionTable} {options : Options} (later : List Node) {r : FunctionRecord}
    (h : ∀ n ∈ r.sequence, n.Within b) : Gives (Plain.function table options (kept later r.sequence) r) fun f =>
      f.id = r.id ∧ Branching r.sequence f.code := by
  unfold Plain.function
  have hkept := allWithin_of_forall fun n hn => h n (kept_subset later r.sequence hn)
  refine .bind_any fun _ => .bind (stmts_branching hkept) fun code hcode => .ret ⟨rfl, ?_⟩
  rw [Branching, conditionals_kept later h] at hcode
  dsimp only
  split
  · rw [Branching, branches_append, hcode]
    rfl
  · exact hcode

theorem functions_branching {table : FunctionTable} {options : Options} : ∀ {records : List FunctionRecord},
    (∀ r ∈ records, ∀ n ∈ r.sequence, n.Within b) → Gives (Plain.functions kept table options records)
      (List.Forall₂ (fun r f => f.id = r.id ∧ Branching r.sequence f.code) records)
  | [], _ => by
    unfold Plain.functions
    exact .ret .nil
  | r :: rest, h => by
    unfold Plain.functions
    exact .bind (function_branching _ (h r List.mem_cons_self)) fun f hf =>
      .bind (functions_branching fun q hq => h q (List.mem_cons_of_mem r hq)) fun fs hfs => .ret (.cons hf hfs)

theorem lowerSequence_closed (later entries : List Node) : Gives (lowerSequence c later entries) Code.Closed := by
  induction entries with
  | nil =>
    unfold lowerSequence
    exact .ret closed_nil
  | cons n rest ih =>
    unfold lowerSequence
    refine .bind_any fun s => ?_
    split
    · exact ih
    · split
      · exact .bind_any fun _ => ih
      · exact .bind (lowerStmt_closed c n) fun a ha => .bind ih fun b hb => .ret (ha.append hb)

theorem lowerFunction_jumps (table : FunctionTable) (options : Options) (later : List Node) (r : FunctionRecord) :
    Gives (lowerFunction table options later r) FunctionCode.JumpsInside := by
  unfold lowerFunction
  refine .bind_any fun _ => .bind (lowerSequence_closed later r.sequence) fun code hcode => .ret ?_
  intro index i offset hi ho
  dsimp only at hi ⊢
  split at hi
  next hmain =>
    -- the jump stands before the last instruction, which is no jump
    have hlt : index < code.length := by
      by_contra hge
      rw [List.getElem?_append_right (by omega), List.getElem?_singleton] at hi
      split at hi
      · obtain rfl := Option.some.inj hi
        cases ho
      · cases hi
    rw [List.getElem?_append_left hlt] at hi
    have hforward := hcode.forward hi ho
    simp only [hmain, if_true, List.length_append, List.length_singleton]
    omega
  next hother =>
    have hforward := hcode.forward hi ho
    simp only [hother, if_false, false_implies, and_true]
    exact hforward

theorem lowerFunctions_jumps (table : FunctionTable) (options : Options) : ∀ records : List FunctionRecord,
    Gives (lowerFunctions table options records) fun fs => ∀ f ∈ fs, f.JumpsInside
  | [] => by
    unfold lowerFunctions
    exact .ret (by simp)
  | r :: rest => by
    unfold lowerFunctions
    exact .bind (lowerFunction_jumps table options _ r) fun f hf =>
      .bind (lowerFunctions_jumps table options rest) fun fs hfs => .ret (List.forall_mem_cons.mpr ⟨hf, hfs⟩)

end Lowering

/-! ## Every condition in one place -/

namespace Node

theorem conditionals_ids_sublist (n : Node) : ((conditionals [n]).map id).Sublist n.ownIds := by
  have hnode : insideAll false [n] = n :: n.inside false := by rw [insideAll, insideAll, List.append_nil]
  have hsub : (conditionals [n]).Sublist (n :: n.inside false) := hnode ▸ List.filter_sublist
  exact hsub.map id

theorem conditionals_eq_flatMap (nodes : List Node) : conditionals nodes = nodes.flatMap fun n => conditionals [n] := by
  induction nodes with
  | nil => rfl
  | cons n rest ih => rw [conditionals_cons, ih, List.flatMap_cons]

end Node

theorem FunctionTable.Distinct.conditionals_nodup {table : FunctionTable} {b : Bounds} (h : table.Distinct)
    (hwithin : ∀ r ∈ table.records, ∀ n ∈ r.sequence, n.Within b) :
    (table.records.flatMap fun r => (Node.conditionals r.sequence).map Node.id).Nodup := by
  have hapart : ∀ {e m : Node}, e.ownIds.Disjoint m.ownIds →
      ((Node.conditionals [e]).map Node.id).Disjoint ((Node.conditionals [m]).map Node.id) := fun {e m} hd _ he hm =>
    hd (e.conditionals_ids_sublist.subset he) (m.conditionals_ids_sublist.subset hm)
  rw [List.nodup_flatMap]
  constructor
  · intro r hr
    rw [Node.conditionals_eq_flatMap, List.map_flatMap, List.nodup_flatMap]
    refine ⟨fun n hn => (h.nodup_of_mem hr n hn).sublist n.conditionals_ids_sublist, ?_⟩
    refine (h.before_of_mem hr).imp_of_mem fun {e m} he _ hleads => ?_
    rcases hleads with hd | ⟨hdecl, _⟩
    · exact hapart hd
    · -- a declaration holds no condition
      have hwe := hwithin r hr e he
      cases e with
      | decl tag constant name value =>
        show (List.map _ _).Disjoint _
        rw [Node.conditionals_singleton rfl, Node.children, Node.conditionals_value (n := value) hwe]
        exact List.disjoint_nil_left _
      | _ => cases hdecl
  · refine h.pairwise.imp fun {r q} hacross i hir hiq => ?_
    dsimp only at hir hiq
    rw [Node.conditionals_eq_flatMap, List.map_flatMap] at hir hiq
    obtain ⟨e, he, hie⟩ := List.mem_flatMap.mp hir
    obtain ⟨m, hm, him⟩ := List.mem_flatMap.mp hiq
    exact hapart (hacross e he m hm) hie him

/-- Whatever tree compiles, its jumps go forward and stay inside their functions, and each function has as many jumps
on a false value as there are conditions in its sequence and inside, without those in the bodies of lambdas. No two of
these conditions have the same number. -/
theorem compileTree_branches {options : Options} {source : List Char} {tree : Tree} {assembly : Assembly}
    (h : (compileTree options source tree).result = .ok assembly) :
    (∀ f ∈ assembly.functions, f.JumpsInside) ∧
    ∃ table, (FunctionTable.ofProgram (.ofTree source tree)).result = .ok table ∧
      (table.records.flatMap fun r => (Node.conditionals r.sequence).map Node.id).Nodup ∧
      List.Forall₂ (fun r f => f.id = r.id ∧ f.code.branches = (Node.conditionals r.sequence).length)
        table.records assembly.functions := by
  obtain ⟨table, hload, hlower⟩ := compileTree_eq_ok h
  have hsound := FunctionTable.sound_of_ofProgram (Program.ofTree_within tree) hload
  have hwithin : ∀ r ∈ table.records, ∀ n ∈ r.sequence, n.Within {} := by
    intro r hr n hn
    obtain ⟨f, hf⟩ := List.getElem?_of_mem hr
    exact hsound.entries ⟨r, hf, hn⟩
  have hdistinct := FunctionTable.distinct_of_ofProgram hload
  obtain ⟨last, -, hfunctions⟩ := Assembly.exists_of_ofTable hlower
  obtain ⟨last', hkept⟩ := hdistinct.exists_kept hfunctions
  exact ⟨Lowering.lowerFunctions_jumps table options table.records _ _ _ hfunctions, table, hload,
    hdistinct.conditionals_nodup hwithin, Lowering.functions_branching hwithin _ _ _ hkept⟩

def branchingSource : List Char :=
  "if (1 > 2) { { if (3 > 4) { print(0) } } } else if (5 > 6) { print(1) } print((x) => { if (x > 0) { return x } })".toList

theorem compileTree_branches_of_chain : ∃ tree assembly, Tree.parse branchingSource = .ok tree ∧
    (compileTree {} branchingSource tree).result = .ok assembly ∧
    assembly.functions.map (fun f => f.code.filterMap Instruction.offset?) = [[8, 3, 7, 3], [3]] ∧
    (∀ f ∈ assembly.functions, f.JumpsInside) ∧
    ∃ table, (FunctionTable.ofProgram (.ofTree branchingSource tree)).result = .ok table ∧
      List.Forall₂ (fun r f => f.id = r.id ∧ f.code.branches = (Node.conditionals r.sequence).length)
        table.records assembly.functions := by
  obtain ⟨tree, hparse, hp⟩ := Tree.exists_of_parse branchingSource (p := fun tree =>
    (compileTree {} branchingSource tree).result.toOption.any fun assembly =>
      assembly.functions.map (fun f => f.code.filterMap Instruction.offset?) = [[8, 3, 7, 3], [3]]) (by decide +kernel)
  cases hcompile : (compileTree {} branchingSource tree).result with
  | error e =>
    rw [hcompile] at hp
    cases hp
  | ok assembly =>
    rw [hcompile] at hp
    obtain ⟨hjumps, table, hload, _, hcount⟩ := compileTree_branches hcompile
    exact ⟨tree, assembly, hparse, hcompile, of_decide_eq_true hp, hjumps, table, hload, hcount⟩

end Bies
