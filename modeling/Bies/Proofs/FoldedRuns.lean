import Bies.Proofs.FoldedCode
import Bies.Proofs.SingleEmission

/-!
# Runs with and without numbers put for names

A program of lambdas is compiled in two ways: one puts numbers for names, the other does not. If the second
code halts, and each variable of another frame that a number is put for was then stored last by the
declaration that the number is taken from, then the first code halts with the same outputs. Where a
variable is declared anew between the definition of a lambda and its call, it was not.
-/

namespace Bies

open Lowering

/-! ## Functions in functions -/

structure Placed.Rooted (p : Placed) (f : FunctionId) (outer : List String) (c : Spot) : Prop where
  ids : p.functions.map (·.record.id) = List.range' c.size p.functions.length
  own : c.own.map (·.1) ⊆ p.spot.own.map (·.1)
  around : ∀ l ∈ p.functions, ∃ g, l.record.parent = some g ∧ g < l.record.id ∧
    ((g = f ∧ l.outer ⊆ outer ++ p.spot.own.map (·.1)) ∨
      ∃ m ∈ p.functions, m.record.id = g ∧ l.outer ⊆ m.outer ++ m.own.map (·.1))

theorem Placed.rooted_nil {p : Placed} {f : FunctionId} {outer : List String} {c : Spot} (h : p.functions = [])
    (hown : c.own.map (·.1) ⊆ p.spot.own.map (·.1)) : p.Rooted f outer c := by
  refine ⟨by rw [h]; rfl, hown, ?_⟩
  rw [h]
  exact nofun

theorem Placed.Rooted.append {p q : Placed} {f : FunctionId} {outer : List String} {c : Spot}
    (hp : p.Rooted f outer c) (hq : q.Rooted f outer p.spot) (hsize : p.spot.size = c.size + p.functions.length) :
    (p.append q).Rooted f outer c where
  ids := by
    rw [Placed.append, List.map_append, hp.ids, hq.ids, hsize, List.length_append, List.range'_append_1]
  own := List.Subset.trans hp.own hq.own
  around l hl := by
    rcases List.mem_append.mp hl with hl | hl
    · obtain ⟨g, hparent, hlt, hcase⟩ := hp.around l hl
      refine ⟨g, hparent, hlt, ?_⟩
      rcases hcase with ⟨hg, houter⟩ | ⟨m, hm, hid, houter⟩
      · refine Or.inl ⟨hg, fun name hname => ?_⟩
        rcases List.mem_append.mp (houter hname) with hname | hname
        · exact List.mem_append_left _ hname
        · exact List.mem_append_right _ (hq.own hname)
      · exact Or.inr ⟨m, List.mem_append_left _ hm, hid, houter⟩
    · obtain ⟨g, hparent, hlt, hcase⟩ := hq.around l hl
      refine ⟨g, hparent, hlt, ?_⟩
      rcases hcase with h | ⟨m, hm, hid, houter⟩
      · exact Or.inl h
      · exact Or.inr ⟨m, List.mem_append_right _ hm, hid, houter⟩

mutual

theorem Stmt.place_rooted (limit : Nat) (f : FunctionId) (outer : List String) :
    ∀ (stmt : Stmt) (c : Spot), f < c.size → (stmt.place limit f outer c).Rooted f outer c
  | .decl .., c, _ => Placed.rooted_nil rfl (List.subset_cons_self ..)
  | .lambdaDecl _ _ _ params body, c, hf => by
    have hbody := Body.place_rooted limit c.size (outer ++ c.own.map (·.1)) body
      ⟨c.next + 1, c.size + 1, c.scopes.pushFunction params, params.map (·, none)⟩ (Nat.lt_succ_self _)
    refine ⟨?_, List.Subset.refl _, fun l hl => ?_⟩
    · rw [Stmt.place, List.map_cons, hbody.ids]
      rfl
    · rcases List.mem_cons.mp hl with rfl | hl
      · exact ⟨f, rfl, hf, Or.inl ⟨rfl, List.Subset.refl _⟩⟩
      · obtain ⟨g, hparent, hlt, hcase⟩ := hbody.around l hl
        refine ⟨g, hparent, hlt, Or.inr ?_⟩
        rcases hcase with ⟨rfl, houter⟩ | ⟨m, hm, hid, houter⟩
        · exact ⟨_, List.mem_cons_self, rfl, houter⟩
        · exact ⟨m, List.mem_cons_of_mem _ hm, hid, houter⟩
  | .letIn _ decls _ body, c, hf => by
    let c₁ : Spot := { c with scopes := c.scopes.pushLetIn }
    have hdecls := Stmt.placeAll_rooted limit f outer decls c₁ hf
    have hsize := @Stmt.size_placeAll limit f outer decls c₁
    have hbody := Stmt.placeAll_rooted limit f outer body (Stmt.placeAll limit f outer decls c₁).spot
      (hsize ▸ Nat.lt_add_right _ hf)
    have hboth := hdecls.append hbody hsize
    exact ⟨hboth.ids, hboth.own, hboth.around⟩
  | .print .., c, _ | .ret .., c, _ | .expr .., c, _ | .funDecl .., c, _ | .ifThen .., c, _ | .ifElse .., c, _
  | .ifElseIf .., c, _ | .block .., c, _ | .malformed .., c, _ => Placed.rooted_nil rfl (List.Subset.refl _)

theorem Body.place_rooted (limit : Nat) (f : FunctionId) (outer : List String) :
    ∀ (body : Body) (c : Spot), f < c.size → (body.place limit f outer c).Rooted f outer c
  | .block _ statements, c, hf => by
    have h := Stmt.placeAll_rooted limit f outer statements c hf
    exact ⟨h.ids, h.own, h.around⟩
  | .value .., c, _ => Placed.rooted_nil rfl (List.Subset.refl _)

theorem Stmt.placeAll_rooted (limit : Nat) (f : FunctionId) (outer : List String) :
    ∀ (statements : List Stmt) (c : Spot), f < c.size → (Stmt.placeAll limit f outer statements c).Rooted f outer c
  | [], c, _ => Placed.rooted_nil rfl (List.Subset.refl _)
  | stmt :: rest, c, hf => by
    have hsize := @Stmt.size_place limit f outer stmt c
    exact (Stmt.place_rooted limit f outer stmt c hf).append
      (Stmt.placeAll_rooted limit f outer rest _ (hsize ▸ Nat.lt_add_right _ hf)) hsize

end

/-- The functions have their positions as numbers. Each but `main` is declared in one before it, and what is around it is
around that one or a variable of it. -/
structure Nesting (all : List Lifted) : Prop where
  ids : ∀ {k : Nat} {l : Lifted}, all[k]? = some l → l.record.id = k
  around : ∀ l ∈ all, (l.record.parent = none ∧ l.outer = []) ∨
    ∃ m ∈ all, l.record.parent = some m.record.id ∧
    m.record.id < l.record.id ∧ l.outer ⊆ m.outer ++ m.own.map (·.1)

theorem Program.nesting_place (program : Program) (limit : Nat) : Nesting (program.place limit).all := by
  have h := Stmt.placeAll_rooted limit 0 [] program ⟨0, 1, .empty, []⟩ Nat.one_pos
  refine ⟨fun {k l} hl => ?_, fun l hl => ?_⟩
  · cases k with
    | zero =>
      obtain rfl := Option.some.inj hl
      rfl
    | succ k =>
      have hid := congrArg (·[k]?) h.ids
      have hl : (program.place limit).functions[k]? = some l := hl
      have hlt := (List.getElem?_eq_some_iff.mp hl).1
      change ((program.place limit).functions.map (·.record.id))[k]? =
        (List.range' 1 (program.place limit).functions.length)[k]? at hid
      rw [List.getElem?_map, hl, List.getElem?_range' hlt] at hid
      have hid : l.record.id = 1 + 1 * k := Option.some.inj hid
      rw [hid, Nat.one_mul, Nat.add_comm]
  · rcases List.mem_cons.mp hl with rfl | hl
    · exact Or.inl ⟨rfl, rfl⟩
    · obtain ⟨g, hparent, hlt, hcase⟩ := h.around l hl
      right
      rcases hcase with ⟨rfl, houter⟩ | ⟨m, hm, rfl, houter⟩
      · exact ⟨_, List.mem_cons_self, hparent, hlt, houter⟩
      · exact ⟨m, List.mem_cons_of_mem _ hm, hparent, hlt, houter⟩

abbrev Lifted.table (all : List Lifted) : FunctionTable := ⟨all.map (·.record)⟩

theorem Nesting.outward {all : List Lifted} (h : Nesting all) {f g : FunctionId} {r : FunctionRecord}
    (hr : (Lifted.table all).records[f]? = some r) (hp : r.parent = some g) : g < f := by
  rw [List.getElem?_map] at hr
  obtain ⟨l, hl, rfl⟩ := Option.map_eq_some_iff.mp hr
  rcases h.around l (List.mem_of_getElem? hl) with ⟨hnone, -⟩ | ⟨m, -, hparent, hlt, -⟩
  · rw [hnone] at hp
    cases hp
  · rw [hparent] at hp
    rw [← Option.some.inj hp, ← h.ids hl]
    exact hlt

theorem Nesting.getElem? {all : List Lifted} (h : Nesting all) {l : Lifted} (hl : l ∈ all) :
    all[l.record.id]? = some l := by
  obtain ⟨k, hk⟩ := List.getElem?_of_mem hl
  rw [h.ids hk, hk]

theorem Nesting.mem_before {done rest : List Lifted} {l m : Lifted} (h : Nesting (done ++ l :: rest))
    (hm : m ∈ done ++ l :: rest) (hlt : m.record.id < l.record.id) : m ∈ done := by
  have hget := h.getElem? hm
  have hl : l.record.id = done.length := h.ids (by simp)
  rw [List.getElem?_append_left (hl ▸ hlt)] at hget
  exact List.mem_of_getElem? hget

theorem Nesting.ne_of_mem {done rest : List Lifted} {l m : Lifted} (h : Nesting (done ++ l :: rest)) (hm : m ∈ rest) :
    m.record.id ≠ l.record.id := by
  obtain ⟨k, hk⟩ := List.getElem?_of_mem hm
  have hl : l.record.id = done.length := h.ids (by simp)
  have hid : m.record.id = done.length + (k + 1) := h.ids (by
    rw [List.getElem?_append_right (Nat.le_add_right _ _), Nat.add_sub_cancel_left]
    exact hk)
  rw [hl, hid]
  exact Nat.ne_of_gt (Nat.lt_add_of_pos_right (Nat.succ_pos k))

namespace FunctionTable

theorem chain_eq (t : FunctionTable) (f : FunctionId) : t.chain f = f :: (t.chain f).tail := rfl

section
variable {t : FunctionTable}
  (h : ∀ {f g : FunctionId} {r : FunctionRecord}, t.records[f]? = some r → r.parent = some g → g < f)
include h

theorem chainFrom_of_lt : ∀ {f limit : Nat}, f < limit → t.chainFrom limit f = t.chainFrom (f + 1) f := by
  intro f
  induction f using Nat.strongRecOn with
  | _ f ih =>
    intro limit hlt
    cases limit with
    | zero => cases hlt
    | succ limit =>
      unfold chainFrom
      cases hparent : (t.byId? f).bind (·.parent) with
      | none => rfl
      | some p =>
        obtain ⟨r, hr, hp⟩ := Option.bind_eq_some_iff.mp hparent
        have hpf : p < f := h hr hp
        simp only
        rw [ih p hpf (Nat.lt_of_lt_of_le hpf (Nat.lt_succ_iff.mp hlt)), ih p hpf hpf]

theorem tail_chain {f p : FunctionId} {r : FunctionRecord} (hr : t.records[f]? = some r) (hp : r.parent = some p) :
    (t.chain f).tail = t.chain p := by
  have hpf := h hr hp
  have hf : f < t.size := (List.getElem?_eq_some_iff.mp hr).1
  have hparent : (t.byId? f).bind (·.parent) = some p := by
    unfold byId?
    rw [hr]
    exact hp
  have htail : (t.chain f).tail = t.chainFrom t.size p := by
    unfold chain
    rw [chainFrom, hparent]
    rfl
  have hp : p < t.size := Nat.lt_trans hpf hf
  rw [htail, chainFrom_of_lt h hp, chain, chainFrom_of_lt h (Nat.lt_succ_of_lt hp)]

end

theorem chainFrom_congr {t t' : FunctionTable}
    (h : ∀ f, (t.byId? f).bind (·.parent) = (t'.byId? f).bind (·.parent)) :
    ∀ (limit : Nat) (f : FunctionId), t.chainFrom limit f = t'.chainFrom limit f
  | 0, _ => rfl
  | limit + 1, f => by
    unfold chainFrom
    rw [h f]
    cases (t'.byId? f).bind (·.parent) with
    | none => rfl
    | some p => simp only [chainFrom_congr h limit p]

end FunctionTable

abbrev Lowering.Context.inside (table : FunctionTable) (options : Options) (f : FunctionId) : Context :=
  ⟨table, options, f, table.chain f⟩

def FunctionTable.labels (t : FunctionTable) (f : FunctionId) : List NodeId :=
  match t.byId? f with
  | some r => Node.labelsAll (Plain.roots r.sequence) ++ if r.id = 0 then [0] else []
  | none => []

namespace Unfolding

section
variable (S : Sources) (functions : List String) (ds ns : List Lifted)

structure Twins : Prop where
  fold : List.Forall₂ (LiftedFoldsTo S functions) ds ns
  nesting : Nesting ds
  roots : ∀ l ∈ ds, Plain.roots l.record.sequence = l.statements
  roots' : ∀ l ∈ ns, Plain.roots l.record.sequence = l.statements
  known : ∀ name ∈ functions, ((Lifted.table ds).get? name).isSome = true

structure Along (done rest : List Lifted) (s t : State) : Prop where
  all : done ++ rest = ds
  names : s.frames.names = t.frames.names
  plain : s.frames.Values (Node.Textless (Lifted.table ds))
  plain' : t.frames.Values (Node.Textless (Lifted.table ns))
  count : s.frames.frames.length = ds.length
  found : ∀ l ∈ done, ∀ name ∈ l.outer ++ l.own.map (·.1),
    (s.frames.resolve? name ((Lifted.table ds).chain l.record.id)).isSome = true
  untouched : ∀ l ∈ rest, (s.frames.frame l.record.id).map (·.name) = l.record.params

end

section
variable {S : Sources} {functions : List String} {ds ns : List Lifted}

theorem forall₂_find? {α β : Type} {r : α → β → Prop} {p : α → Bool} {q : β → Bool} {xs : List α}
    {ys : List β} (h : List.Forall₂ r xs ys) (hpq : ∀ x y, r x y → p x = q y) :
    Option.Rel r (xs.find? p) (ys.find? q) := by
  induction h with
  | nil => exact .none
  | @cons x y xs ys hxy _ ih =>
    rw [List.find?_cons, List.find?_cons, ← hpq x y hxy]
    cases p x with
    | true => exact .some hxy
    | false => exact ih

theorem Twins.paired (h : Twins S functions ds ns) (options : Options) {l m : Lifted}
    (hlm : LiftedFoldsTo S functions l m) :
    Context.Paired (.inside (Lifted.table ds) options l.record.id)
      (.inside (Lifted.table ns) options m.record.id) functions where
  options := rfl
  function := hlm.id
  chain := by
    have hsize : (Lifted.table ds).size = (Lifted.table ns).size := by
      simp [FunctionTable.size, h.fold.length_eq]
    dsimp only
    unfold FunctionTable.chain
    rw [hsize, hlm.id]
    refine FunctionTable.chainFrom_congr (fun f => ?_) _ _
    unfold FunctionTable.byId?
    rw [List.getElem?_map, List.getElem?_map]
    cases hd : ds[f]? with
    | some d =>
      obtain ⟨n, hn, hdn⟩ := forall₂_getElem? h.fold hd
      rw [hn]
      exact hdn.parent
    | none =>
      rw [List.getElem?_eq_none_iff, h.fold.length_eq, ← List.getElem?_eq_none_iff] at hd
      rw [hd]
  head := rfl
  get? name := by
    dsimp only
    unfold FunctionTable.get?
    rw [List.find?_map, List.find?_map]
    have hfind := forall₂_find? (p := fun l => decide (l.record.name = name))
      (q := fun l => decide (l.record.name = name))
      h.fold fun x y hxy => by rw [hxy.name]
    change ((ds.find? fun l => decide (l.record.name = name)).map (·.record)).map _ =
      ((ns.find? fun l => decide (l.record.name = name)).map (·.record)).map _
    generalize ds.find? _ = x at hfind ⊢
    generalize ns.find? _ = y at hfind ⊢
    cases hfind with
    | none => rfl
    | some hxy =>
      simp only [Option.map_some, FunctionRecord.arity, hxy.id, hxy.params]
  known := h.known

theorem Twins.labels_eq (h : Twins S functions ds ns) {l : Lifted} (hl : l ∈ ds) :
    (Lifted.table ds).labels l.record.id =
      Node.labelsAll l.statements ++ if l.record.id = 0 then [0] else [] := by
  unfold FunctionTable.labels FunctionTable.byId?
  rw [List.getElem?_map, h.nesting.getElem? hl, Option.map_some, ← h.roots l hl]

section
variable {done rest : List Lifted} {l m : Lifted} {s t s' t' : State}

theorem Along.mem (h : Along ds ns done (l :: rest) s t) : l ∈ ds := by
  rw [← h.all]
  exact List.mem_append_right _ List.mem_cons_self

theorem Along.bound (htwins : Twins S functions ds ns) (options : Options) (h : Along ds ns done (l :: rest) s t) :
    Bound (.inside (Lifted.table ds) options l.record.id) l.outer
      (l.record.params.map (·, none)) (fun _ => none) s.frames := by
  have hget := htwins.nesting.getElem? h.mem
  have hslot (name : String) : ((s.frames.frame l.record.id).slot? name).isSome = decide (name ∈ l.record.params) := by
    rw [Frame.slot?_eq, h.untouched l List.mem_cons_self, List.findIdx?_isSome]
    simp [List.any_eq]
  refine ⟨?_, fun {name o} hname => ?_, fun {name} _ hnone => ?_, fun {name} hname => ?_⟩
  · rw [h.count]
    exact (List.getElem?_eq_some_iff.mp hget).1
  · rw [lookup_params] at hname
    obtain ⟨hmem, ho⟩ := Option.ite_none_right_eq_some.mp hname
    have hsome := hslot name
    rw [decide_eq_true hmem] at hsome
    obtain ⟨slot, hslot⟩ := Option.isSome_iff_exists.mp hsome
    exact ⟨slot, hslot, Option.some.inj ho⟩
  · rw [lookup_params] at hnone
    have hmem : name ∉ l.record.params := fun hmem => by
      rw [if_pos hmem] at hnone
      cases hnone
    have hsome := hslot name
    rw [decide_eq_false hmem] at hsome
    exact Option.isNone_iff_eq_none.mp (Option.isSome_eq_false_iff.mp hsome)
  -- the function around has been lowered, and its frame and those around it are the rest of the chain
  · rcases htwins.nesting.around l h.mem with ⟨-, hnone⟩ | ⟨m, hm, hparent, hlt, houter⟩
    · rw [hnone] at hname
      cases hname
    · have hrecord : (Lifted.table ds).records[l.record.id]? = some l.record := by
        rw [List.getElem?_map, hget]
        rfl
      have hmem : m ∈ done := by
        have hall := h.all
        subst hall
        exact htwins.nesting.mem_before hm hlt
      dsimp only
      rw [FunctionTable.tail_chain htwins.nesting.outward hrecord hparent]
      exact h.found m hmem name (houter hname)

theorem Along.step (htwins : Twins S functions ds ns) {options : Options} {written : Nat → Option NodeId}
    {f : FunctionId} (h : Along ds ns done (l :: rest) s t)
    (hbeside : Beside (.inside (Lifted.table ds) options l.record.id) (.inside (Lifted.table ns) options f) s.frames
      l.outer l.own written s' t') :
    Along ds ns (done ++ [l]) rest s' t' where
  all := by
    rw [List.append_assoc]
    exact h.all
  names := hbeside.names
  plain := hbeside.plain
  plain' := hbeside.plain'
  count := hbeside.grown.count.trans h.count
  found k hk name hname := by
    rcases List.mem_append.mp hk with hk | hk
    · exact hbeside.grown.isSome_resolve? (h.found k hk name hname)
    · obtain rfl := List.mem_singleton.mp hk
      have hbound := hbeside.bound
      rw [FunctionTable.chain_eq, Frames.resolve?_cons]
      cases hslot : (s'.frames.frame k.record.id).slot? name with
      | some slot => rfl
      | none =>
        rw [Option.isSome_map]
        rcases List.mem_append.mp hname with hname | hname
        · exact hbound.around hname
        -- a variable of the function has a slot
        · cases hlookup : k.own.lookup name with
          | some o =>
            obtain ⟨slot, hsome, -⟩ := hbound.here hlookup
            rw [hslot] at hsome
            cases hsome
          | none =>
            obtain ⟨p, hp, rfl⟩ := List.mem_map.mp hname
            have := List.lookup_eq_none_iff.mp hlookup p hp
            simp at this
  untouched k hk := by
    have hne : k.record.id ≠ l.record.id := by
      have hall := h.all
      subst hall
      exact htwins.nesting.ne_of_mem hk
    rw [hbeside.others _ hne]
    exact h.untouched k (List.mem_cons_of_mem _ hk)

end

structure CodePair (S : Sources) (labels : FunctionId → List NodeId) (f f' : FunctionCode) : Prop where
  id : f.id = f'.id
  parent : f.parent = f'.parent
  length : f.code.length = (labels f.id).length
  aligned : Aligned S (fun _ => none) none (f.code.zip (labels f.id)) f'.code

theorem CodePair.of_pairs {labels : FunctionId → List NodeId} {f f' : FunctionCode} {written : Nat → Option NodeId}
    (hid : f.id = f'.id) (hparent : f.parent = f'.parent)
    (h : Pairs S (fun _ => none) (labels f.id) f.code f'.code written none) : CodePair S labels f f' := by
  refine ⟨hid, hparent, h.length, ?_⟩
  have haligned := @Pairs.aligned _ _ _ _ _ _ _ h none [] [] .nil
  rw [List.append_nil, List.append_nil] at haligned
  exact haligned

theorem unfolds_of_codePairs {labels : FunctionId → List NodeId} {direct folded : List FunctionCode}
    (h : List.Forall₂ (CodePair S labels) direct folded) : Unfolds S labels direct folded := by
  refine ⟨fun {g f} hf => ?_⟩
  have hfind := forall₂_find? (p := fun f => decide (f.id = g)) (q := fun f => decide (f.id = g)) h
    fun x y hxy => by rw [hxy.id]
  have hid : f.id = g := by simpa using List.find?_some hf
  unfold FunctionCode.find? at hf ⊢
  rw [hf] at hfind
  generalize folded.find? _ = y at hfind
  cases hfind with
  | some hpair => exact ⟨_, rfl, hpair.parent, hid ▸ hpair.length, hid ▸ hpair.aligned⟩

theorem function_together (htwins : Twins S functions ds ns) (options : Options) {done rest : List Lifted} {l m : Lifted}
    (hm : m ∈ ns) (hlm : LiftedFoldsTo S functions l m) : Together (Along ds ns done (l :: rest))
      (Plain.function (Lifted.table ds) options (Plain.roots l.record.sequence) l.record)
      (Plain.function (Lifted.table ns) options (Plain.roots m.record.sequence) m.record)
      fun f f' s t => CodePair S (Lifted.table ds).labels f f' ∧ Along ds ns (done ++ [l]) rest s t := by
  intro s t h
  have hc := htwins.paired options hlm
  let start := Beside (.inside (Lifted.table ds) options l.record.id) (.inside (Lifted.table ns) options m.record.id)
    s.frames l.outer (l.record.params.map (·, none)) fun _ => none
  have hstart : start s t := ⟨h.names, h.plain, h.plain', h.bound htwins options, .refl _, fun _ _ => rfl⟩
  have hnote : Together start (note (.loweringFunction l.record.id l.record.name))
      (note (.loweringFunction m.record.id m.record.name)) fun _ _ => start := .change fun _ _ h => h.aside rfl rfl
  unfold Plain.function
  rw [htwins.roots l h.mem, htwins.roots' m hm]
  refine (hnote.bind fun _ _ => (stmts_together hc hlm.statements).andThenSome fun written a a' ha =>
    .ret fun s' t' hbeside => ⟨@CodePair.of_pairs S _ _ _ written hlm.id ?_ ?_, h.step htwins hbeside⟩) s t hstart
  · simp only [hlm.parent]
  · simp only [htwins.labels_eq h.mem, ← hlm.id]
    split
    · exact ha.append (.same 0 nofun)
    · rw [List.append_nil]
      exact ha

theorem functions_together (htwins : Twins S functions ds ns) (options : Options) : ∀ {done rest rest' : List Lifted},
    List.Forall₂ (LiftedFoldsTo S functions) rest rest' → (∀ m ∈ rest', m ∈ ns) →
    Together (Along ds ns done rest) (Plain.functions (fun _ => Plain.roots) (Lifted.table ds) options
      (rest.map (·.record)))
      (Plain.functions (fun _ => Plain.roots) (Lifted.table ns) options (rest'.map (·.record)))
      fun fs fs' _ _ => List.Forall₂ (CodePair S (Lifted.table ds).labels) fs fs'
  | _, [], [], .nil, _ => .ret fun _ _ _ => .nil
  | _, l :: rest, m :: rest', .cons hlm hrest, hmem => by
    obtain ⟨hm, hmem⟩ := List.forall_mem_cons.mp hmem
    exact (function_together htwins options hm hlm).andThen fun f f' hf =>
      (functions_together htwins options hrest hmem).bind fun fs fs' => .ret fun _ _ hfs => .cons hf hfs

theorem lower_together (htwins : Twins S functions ds ns) (options : Options) :
    Together (Along ds ns [] ds) (Plain.lower (Lifted.table ds) options) (Plain.lower (Lifted.table ns) options)
      fun a a' _ _ => List.Forall₂ (CodePair S (Lifted.table ds).labels) a.functions a'.functions :=
  (functions_together htwins options htwins.fold fun _ hm => hm).bind fun _ _ =>
    .read fun _ _ _ => .ret fun _ _ h => h.2.2

theorem names_ofTable_eq (all : List Lifted) :
    (Frames.ofTable (Lifted.table all)).names = all.map (·.record.params) := by
  simp [Frames.names, Frames.ofTable, Frame.ofParams, Function.comp_def]

theorem values_ofTable {P : Node → Prop} (table : FunctionTable) : (Frames.ofTable table).Values P := by
  intro F hF b hb n hn
  obtain ⟨r, -, rfl⟩ := List.mem_map.mp hF
  obtain ⟨param, -, rfl⟩ := List.mem_map.mp hb
  cases hn

theorem along_start (htwins : Twins S functions ds ns) : Along ds ns [] ds { frames := .ofTable (Lifted.table ds) }
    { frames := .ofTable (Lifted.table ns) } where
  all := rfl
  names := by
    rw [names_ofTable_eq, names_ofTable_eq]
    have hfold := htwins.fold
    clear htwins
    induction hfold with
    | nil => rfl
    | cons h _ ih => rw [List.map_cons, List.map_cons, h.params, ih]
  plain := values_ofTable _
  plain' := values_ofTable _
  count := by simp [Frames.ofTable]
  found := nofun
  untouched l hl := by
    refine @names_ofTable (Lifted.table ds) _ ?_
    rw [List.getElem?_map, htwins.nesting.getElem? hl]
    rfl

end

end Unfolding

/-! ## Programs -/

open Loading Unfolding

theorem Placed.table_eq (p : Placed) : p.table = Lifted.table p.all := rfl

def Placed.sources (p : Placed) : Sources := ⟨p.puts, fun i => (p.values.lookup i).join⟩

theorem lookup_of_mem {α β : Type} [BEq α] [LawfulBEq α] {a : α} {b : β} :
    ∀ {l : List (α × β)}, (l.map (·.1)).Nodup → (a, b) ∈ l → l.lookup a = some b
  | (a', b') :: l, hnodup, hmem => by
    obtain ⟨hnot, hnodup⟩ := List.nodup_cons.mp hnodup
    rcases List.mem_cons.mp hmem with heq | hrest
    · obtain ⟨rfl, rfl⟩ := Prod.mk.inj heq
      exact List.lookup_cons_self
    · have hne : a ≠ a' := fun heq => hnot (List.mem_map.mpr ⟨_, hrest, heq⟩)
      rw [List.lookup_cons, beq_eq_false_iff_ne.mpr hne]
      exact lookup_of_mem hnodup hrest

theorem Program.twins {program : Program} (h : program.isBasic = true) (limit : Nat) :
    Twins (program.place limit).sources (Stmt.lambdasAll program) (program.place 0).all (program.place limit).all := by
  simp only [Program.isBasic, Bool.and_eq_true, decide_eq_true_eq] at h
  obtain ⟨⟨hbasic, -⟩, -⟩ := h
  have hnumbered := fun limit => @Stmt.placeAll_numbered limit _ 0 [] program ⟨0, 1, .empty, []⟩ hbasic
  have hroots : ∀ limit, ∀ l ∈ (program.place limit).all, Plain.roots l.record.sequence = l.statements := by
    intro limit l hl
    rcases List.mem_cons.mp hl with rfl | hl
    · exact Plain.roots_entries (hnumbered limit).apart
    · exact (hnumbered limit).roots l hl
  have hvalues : ∀ v ∈ (program.place limit).values, (program.place limit).sources.number v.1 = v.2 := fun v hv =>
    congrArg Option.join (lookup_of_mem (hnumbered limit).distinct hv)
  obtain ⟨hfolds, -⟩ := stmts_foldTo (S := (program.place limit).sources) 0 [] (c := ⟨0, 1, .empty, []⟩)
    .empty hbasic trivial
    (List.Subset.refl _) hvalues
  refine ⟨.cons ⟨rfl, rfl, rfl, rfl, ?_⟩ hfolds.functions, program.nesting_place 0, hroots 0, hroots limit,
    fun name hname => ?_⟩
  · have hown : (program.place 0).spot.own = (program.place limit).spot.own := by
      have hspot := congrArg Spot.own hfolds.spot
      exact hspot
    show StmtsFoldTo _ _ [] [] (program.place 0).nodes (program.place limit).nodes (program.place 0).spot.own
    rw [hown]
    exact hfolds.nodes
  · rw [← @Stmt.lambdas_placeAll 0 0 [] program ⟨0, 1, .empty, []⟩] at hname
    obtain ⟨l, hl, rfl⟩ := List.mem_map.mp hname
    refine List.find?_isSome.mpr ⟨l.record, ?_, by simp⟩
    exact List.mem_map_of_mem (List.mem_cons_of_mem _ hl)

def Program.assembly (limit : Nat) (options : Options) (program : Program) : Except CompileError Assembly :=
  ((Outcome.ofRun Loading.State.events (load program) { names := limit }).andThen (Assembly.ofTable · options)).result

theorem Program.compileTree_eq (options : Options) (source : List Char) (tree : Tree) :
    (compileTree options source tree).result = (Program.ofTree source tree).assembly maxNames options := rfl

theorem Program.assembly_eq {program : Program} (h : program.isBasic = true) (limit : Nat) (options : Options) :
    program.assembly limit options = (Assembly.plain (program.place limit).table options).result := by
  obtain ⟨s, hload⟩ := load_place h limit
  rw [← Assembly.ofTable_eq_plain options (Placed.separated h limit)]
  unfold Program.assembly Outcome.ofRun Outcome.andThen
  rw [hload]

/-- The two ways of compiling fail with the same error, or give codes the second of which has numbers in the place of
code that computes them. -/
theorem Program.unfolds {program : Program} (h : program.isBasic = true) (limit : Nat) (options : Options) :
    match program.assembly 0 options, program.assembly limit options with
    | .ok direct, .ok folded =>
      Unfolds (program.place limit).sources (program.place 0).table.labels direct.functions folded.functions
    | .error e, .error e' => e = e'
    | _, _ => False := by
  rw [assembly_eq h, assembly_eq h]
  have htogether := lower_together (program.twins h limit) options _ _ (along_start (program.twins h limit))
  unfold Assembly.plain Outcome.ofRun
  rw [Placed.table_eq, Placed.table_eq]
  generalize (Plain.lower (Lifted.table (program.place 0).all) options).run _ = x at htogether ⊢
  generalize (Plain.lower (Lifted.table (program.place limit).all) options).run _ = y at htogether ⊢
  cases x <;> cases y
  · exact unfolds_of_codePairs htogether
  · exact htogether
  · exact htogether
  · exact htogether

/-- A program of lambdas is refused both with and without numbers put for names, or neither. Where the code without them
halts, the code with them halts with the same outputs, if on the way every variable of another frame that is read in the
place of a number was stored last by the node that the number is taken from. -/
theorem compileTree_halts_of_sourced {source : List Char} {tree : Tree} (h : (Program.ofTree source tree).isBasic = true)
    (options : Options) :
    match (Program.ofTree source tree).assembly 0 options, (compileTree options source tree).result with
    | .ok direct, .ok folded => ∀ (V : Type) (A : Arithmetic V) (link : Linking) (out : List (Value V)),
      Process.Halts A link direct.functions (Process.Sourced direct.functions
        ((Program.ofTree source tree).place 0).table.labels ((Program.ofTree source tree).place maxNames).puts)
        (Process.start A) out →
      Process.Halts A link folded.functions (fun _ => True) (Process.start A) out
    | .error e, .error e' => e = e'
    | _, _ => False := by
  have hunfolds := (Program.ofTree source tree).unfolds h maxNames options
  rw [Program.compileTree_eq]
  split at hunfolds
  next => exact fun V A link out hhalts => hunfolds.halts hhalts
  next => exact hunfolds
  next => exact hunfolds.elim

def Process.isSourced {V : Type} (functions : List FunctionCode) (labels : FunctionId → List NodeId)
    (puts : List (NodeId × NodeId)) (p : Process V) : Bool :=
  match p.calls.head?, p.next? functions, p.position?.bind (label? labels) with
  | some call, some (.bld (n + 1) slot), some i => puts.all fun put =>
    put.1 ≠ i || ((p.slot? call.frame (n + 1) slot).bind (·.writer)).bind (label? labels) = some put.2
  | _, _, _ => true

theorem Process.sourced_of_isSourced {V : Type} {functions : List FunctionCode} {labels : FunctionId → List NodeId}
    {puts : List (NodeId × NodeId)} (p : Process V) (h : p.isSourced functions labels puts = true) :
    p.Sourced functions labels puts := by
  intro call n slot i j hcall hnext hlabel hput
  unfold isSourced at h
  rw [hcall, hnext, hlabel] at h
  have hput := List.all_eq_true.mp h (i, j) hput
  simpa using hput

theorem Program.exists_of_assembly? (source : List Char) {p : Program → Assembly → Assembly → Bool}
    (h : (Tree.parse source).toOption.any (fun tree =>
      match (ofTree source tree).assembly 0 {}, (compileTree {} source tree).result with
      | .ok direct, .ok folded => p (ofTree source tree) direct folded
      | _, _ => false) = true) :
    ∃ tree direct folded, Tree.parse source = .ok tree ∧ (ofTree source tree).assembly 0 {} = .ok direct ∧
      (compileTree {} source tree).result = .ok folded ∧ p (ofTree source tree) direct folded = true := by
  obtain ⟨tree, hparse, hp⟩ := Tree.exists_of_parse source h
  split at hp
  next direct folded hdirect hfolded => exact ⟨tree, direct, folded, hparse, hdirect, hfolded, hp⟩
  next => cases hp

def Program.calledSource : List Char :=
  "let { let a = 1 let f = (x) => x * (a + 2) } in { print(f(3)) let a = 5 print(a + 1) }".toList

theorem compileTree_halts_of_calledSource : ∃ tree direct folded, Tree.parse Program.calledSource = .ok tree ∧
    (Program.ofTree Program.calledSource tree).isBasic = true ∧
    (Program.ofTree Program.calledSource tree).assembly 0 {} = .ok direct ∧
    (compileTree {} Program.calledSource tree).result = .ok folded ∧
    direct.functions.map (·.code.length) = [13, 6] ∧ folded.functions.map (·.code.length) = [11, 4] ∧
    Process.Halts .whole .latest direct.functions (Process.Sourced direct.functions
      ((Program.ofTree Program.calledSource tree).place 0).table.labels
      ((Program.ofTree Program.calledSource tree).place maxNames).puts) (Process.start .whole)
      [.data (some 9), .data (some 6)] ∧
    Process.Halts .whole .latest folded.functions (fun _ => True) (Process.start .whole)
      [.data (some 9), .data (some 6)] := by
  obtain ⟨tree, direct, folded, hparse, hdirect, hfolded, hp⟩ := Program.exists_of_assembly? Program.calledSource
    (p := fun program direct folded => program.isBasic && decide (direct.functions.map (·.code.length) = [13, 6]) &&
      decide (folded.functions.map (·.code.length) = [11, 4]) &&
      decide (Process.haltsWithin? .whole .latest direct.functions (Process.isSourced direct.functions
        (program.place 0).table.labels (program.place maxNames).puts) 30 (Process.start .whole) =
          some [.data (some 9), .data (some 6)])) (by decide +kernel)
  simp only [Bool.and_eq_true, decide_eq_true_eq] at hp
  obtain ⟨⟨⟨hbasic, hdirectLength⟩, hfoldedLength⟩, hhalts⟩ := hp
  have hsourced := (Process.halts_of_haltsWithin? hhalts).imp Process.sourced_of_isSourced
  have hsame := compileTree_halts_of_sourced hbasic {}
  rw [hdirect, hfolded] at hsame
  exact ⟨tree, direct, folded, hparse, hbasic, hdirect, hfolded, hdirectLength, hfoldedLength, hsourced,
    hsame _ .whole .latest _ hsourced⟩

/-- The lambda is called after `a` was declared anew in the same let-in. -/
def Program.redeclaredSource : List Char :=
  "let { let a = 1 let f = () => a + 0 let a = 2 } in { print(f()) }".toList

/-- The code prints 2 without a number put for `a`, and 1 with it. -/
theorem not_compileTree_halts_of_redeclaredSource : ∃ tree direct folded,
    Tree.parse Program.redeclaredSource = .ok tree ∧ (Program.ofTree Program.redeclaredSource tree).isBasic = true ∧
    (Program.ofTree Program.redeclaredSource tree).assembly 0 {} = .ok direct ∧
    (compileTree {} Program.redeclaredSource tree).result = .ok folded ∧
    Process.Halts .whole .latest direct.functions (fun _ => True) (Process.start .whole) [.data (some 2)] ∧
    Process.Halts .whole .latest folded.functions (fun _ => True) (Process.start .whole) [.data (some 1)] ∧
    ¬ Process.Halts .whole .latest folded.functions (fun _ => True) (Process.start .whole) [.data (some 2)] := by
  obtain ⟨tree, direct, folded, hparse, hdirect, hfolded, hp⟩ := Program.exists_of_assembly? Program.redeclaredSource
    (p := fun program direct folded => program.isBasic &&
      decide (Process.haltsWithin? .whole .latest direct.functions (fun _ => true) 30 (Process.start .whole) =
        some [.data (some 2)]) &&
      decide (Process.haltsWithin? .whole .latest folded.functions (fun _ => true) 30 (Process.start .whole) =
        some [.data (some 1)])) (by decide +kernel)
  simp only [Bool.and_eq_true, decide_eq_true_eq] at hp
  obtain ⟨⟨hbasic, hhalts⟩, hhalts'⟩ := hp
  have hprints := (Process.halts_of_haltsWithin? hhalts').imp fun _ _ => trivial
  refine ⟨tree, direct, folded, hparse, hbasic, hdirect, hfolded,
    (Process.halts_of_haltsWithin? hhalts).imp fun _ _ => trivial, hprints, fun h => ?_⟩
  exact absurd (h.unique hprints) (by decide)

end Bies
