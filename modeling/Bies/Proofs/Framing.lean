import Bies.Proofs.Branches
import Bies.Proofs.Nesting
import Bies.Proofs.Records

/-!
# Functions and their frames

The number of a function is its place in the table. The table begins with `main`, and every other function has one before
it as its parent, so the way outwards ends in `main`. The code has the functions of the table in the same order, and it
halts at the end of `main` and nowhere else.
-/

namespace Bies

open Loading

/-! ## The functions of a table -/

namespace FunctionTable

structure Framed (t : FunctionTable) : Prop where
  numbered : ∀ {f : FunctionId} {r : FunctionRecord}, t.records[f]? = some r → r.id = f
  nodup : t.names.Nodup
  main : ∃ sequence, t.records[0]? = some ⟨0, mainName, [], none, sequence⟩
  inner : ∀ {f : FunctionId} {r : FunctionRecord}, t.records[f]? = some r → f ≠ 0 →
    ∃ p, r.parent = some p ∧ p < f

def IsParent (t : FunctionTable) (f p : FunctionId) : Prop := ∃ r, t.byId? f = some r ∧ r.parent = some p

structure Outwards (t : FunctionTable) (f : FunctionId) (path : List FunctionId) : Prop where
  head : path.head? = some f
  steps : path.IsChain t.IsParent
  decreasing : path.Pairwise (· > ·)
  last : path.getLast? = some 0

variable {t : FunctionTable} {f p : FunctionId}

namespace Framed

theorem outward (h : t.Framed) {r : FunctionRecord} (hr : t.records[f]? = some r) (hp : r.parent = some p) : p < f := by
  by_cases hf : f = 0
  · obtain ⟨sequence, hmain⟩ := h.main
    rw [hf, hmain] at hr
    obtain rfl := Option.some.inj hr
    cases hp
  · obtain ⟨q, hq, hlt⟩ := h.inner hr hf
    exact Option.some.inj (hp.symm.trans hq) ▸ hlt

theorem chain_main (h : t.Framed) : t.chain 0 = [0] := by
  obtain ⟨sequence, hmain⟩ := h.main
  have hnone : (t.byId? 0).bind (·.parent) = none := by
    unfold byId?
    rw [hmain]
    rfl
  unfold chain
  rw [chainFrom, hnone]

theorem chain_inner (h : t.Framed) {r : FunctionRecord} (hr : t.records[f]? = some r) (hp : r.parent = some p) :
    t.chain f = f :: t.chain p := by
  rw [chain_eq, tail_chain h.outward hr hp]

theorem outwards_main (h : t.Framed) : t.Outwards 0 (t.chain 0) := by
  rw [h.chain_main]
  exact ⟨rfl, .singleton 0, List.pairwise_singleton _ _, rfl⟩

theorem outwards_inner (h : t.Framed) {r : FunctionRecord} (hr : t.records[f]? = some r) (hp : r.parent = some p)
    (ih : t.Outwards p (t.chain p)) : t.Outwards f (t.chain f) := by
  have hpf := h.outward hr hp
  rw [h.chain_inner hr hp]
  have hchain := chain_eq t p
  refine ⟨rfl, ?_, List.pairwise_cons.mpr ⟨fun g hg => ?_, ih.decreasing⟩, ?_⟩
  · have hsteps := ih.steps
    rw [hchain] at hsteps ⊢
    exact .cons_cons ⟨r, hr, hp⟩ hsteps
  · -- `p` comes first and is the greatest
    have hdecreasing := ih.decreasing
    rw [hchain] at hg hdecreasing
    rcases List.mem_cons.mp hg with rfl | hg
    · exact hpf
    · exact Nat.lt_trans ((List.pairwise_cons.mp hdecreasing).1 g hg) hpf
  · have hlast := ih.last
    rw [hchain] at hlast ⊢
    rwa [List.getLast?_cons_cons]

theorem outwards_chain (h : t.Framed) (hf : f < t.size) : t.Outwards f (t.chain f) := by
  induction f using Nat.strongRecOn with
  | _ f ih =>
    by_cases hzero : f = 0
    · exact hzero ▸ h.outwards_main
    · have hr : t.records[f]? = some (t.records.get ⟨f, hf⟩) := List.getElem?_eq_getElem hf
      obtain ⟨p, hp, hlt⟩ := h.inner hr hzero
      exact h.outwards_inner hr hp (ih p hlt (Nat.lt_trans hlt hf))

theorem chainFrom_eq_chain (h : t.Framed) (hf : f < t.size) {limit : Nat} (hlimit : f < limit) :
    t.chainFrom limit f = t.chain f := by
  rw [chain, chainFrom_of_lt h.outward hlimit, chainFrom_of_lt h.outward (Nat.lt_succ_of_lt hf)]

end Framed

theorem exists_main_of_ofProgram {program : Program} {table : FunctionTable}
    (h : (ofProgram program).result = .ok table) :
    ∃ sequence, table.records[0]? = some ⟨0, mainName, [], none, sequence⟩ := by
  obtain ⟨hnumbered, entries, hchanges⟩ := changes_of_ofProgram h (x := mainName) (by decide)
  unfold Changes at hchanges
  cases hlast : (program.declarations mainName).getLast? with
  | some d =>
    rw [hlast] at hchanges
    exact absurd rfl hchanges.1
  | none =>
    rw [hlast] at hchanges
    have hmain : table.get? mainName = some ⟨0, mainName, [], none, entries⟩ := hchanges
    obtain ⟨i, hi⟩ := List.getElem?_of_mem (List.mem_of_find?_eq_some hmain)
    obtain rfl : 0 = i := hnumbered.id_eq hi
    exact ⟨entries, hi⟩

theorem framed_of_ofTree {source : List Char} {tree : Tree} {table : FunctionTable}
    (h : (ofProgram (.ofTree source tree)).result = .ok table) : table.Framed := by
  have htraced := traced_of_ofProgram h
  have hsound := sound_of_ofProgram (Program.ofTree_within tree) h
  obtain ⟨sequence, hmain⟩ := exists_main_of_ofProgram h
  refine ⟨htraced.id_eq, htraced.nodup, ⟨sequence, hmain⟩, fun {f r} hr hf => ?_⟩
  have hname : r.name ≠ mainName := by
    intro hname
    have hr' : table.names[f]? = some mainName := by rw [getElem?_names, hr, Option.map_some, hname]
    have hmain' : table.names[0]? = some mainName := by rw [getElem?_names, hmain, Option.map_some]
    exact hf ((List.getElem?_inj (List.getElem?_eq_some_iff.mp hr').1 htraced.nodup).mp (hr'.trans hmain'.symm))
  obtain ⟨p, -, hp, -⟩ := htraced.parents hr hname
  exact ⟨p, hp, hsound.outward hr hp⟩

end FunctionTable

/-! ## The functions of the code -/

/-- The code of the function, which halts at the end of `main` only. -/
structure FunctionRecord.Frames (r : FunctionRecord) (f : FunctionCode) : Prop where
  id : f.id = r.id
  name : f.name = r.name
  arity : f.arity = r.params.length
  parent : f.parent = r.parent.getD 0
  code : ∃ code, f.code = (if r.id = 0 then code ++ [.hlt] else code) ∧ .hlt ∉ code

namespace Lowering

theorem lowerFunction_frames (table : FunctionTable) (options : Options) (later : List Node) (r : FunctionRecord) :
    Gives (lowerFunction table options later r) r.Frames := by
  unfold lowerFunction
  refine .bind_any fun _ => .bind (lowerSequence_closed later r.sequence) fun code hcode => .ret ?_
  refine ⟨rfl, rfl, rfl, rfl, code, rfl, fun hmem => ?_⟩
  cases hcode.running _ hmem

theorem lowerFunctions_frames (table : FunctionTable) (options : Options) : ∀ records : List FunctionRecord,
    Gives (lowerFunctions table options records) (List.Forall₂ FunctionRecord.Frames records)
  | [] => by
    unfold lowerFunctions
    exact .ret .nil
  | r :: rest => by
    unfold lowerFunctions
    exact .bind (lowerFunction_frames table options _ r) fun f hf =>
      .bind (lowerFunctions_frames table options rest) fun fs hfs => .ret (.cons hf hfs)

end Lowering

/-- Whatever tree is loaded, its functions are numbered by their places, have names of their own and lie in each
other with `main` around all. Whatever tree compiles, the code has these functions in order, and halts at the
end of `main` only. -/
theorem compileTree_framing (source : List Char) (tree : Tree) :
    (∀ table, (FunctionTable.ofProgram (.ofTree source tree)).result = .ok table →
      table.Framed ∧ ∀ f < table.size, table.Outwards f (table.chain f) ∧
        ∀ limit > f, table.chainFrom limit f = table.chain f) ∧
    ∀ options assembly, (compileTree options source tree).result = .ok assembly →
      ∃ table, (FunctionTable.ofProgram (.ofTree source tree)).result = .ok table ∧
        List.Forall₂ FunctionRecord.Frames table.records assembly.functions := by
  constructor
  · intro table hload
    have h := FunctionTable.framed_of_ofTree hload
    exact ⟨h, fun f hf => ⟨h.outwards_chain hf, fun limit hlimit => h.chainFrom_eq_chain hf hlimit⟩⟩
  · intro options assembly hcompile
    obtain ⟨table, hload, hlower⟩ := compileTree_eq_ok hcompile
    obtain ⟨last, -, hfunctions⟩ := Assembly.exists_of_ofTable hlower
    exact ⟨table, hload, Lowering.lowerFunctions_frames table options table.records _ _ _ hfunctions⟩

def framedSource : List Char := "fun f(x) { fun g() { return x } return g() } print(f(1)) print((z) => z)".toList

theorem compileTree_framing_of_framedSource : ∃ tree table assembly, Tree.parse framedSource = .ok tree ∧
    (FunctionTable.ofProgram (.ofTree framedSource tree)).result = .ok table ∧
    (compileTree {} framedSource tree).result = .ok assembly ∧ table.size = 4 ∧ table.Framed ∧
    table.Outwards 2 (table.chain 2) ∧ List.Forall₂ FunctionRecord.Frames table.records assembly.functions := by
  obtain ⟨tree, hparse, hp⟩ := Tree.exists_of_parse framedSource (p := fun tree =>
    (compileTree {} framedSource tree).result.toOption.any fun assembly : Assembly => assembly.functions.length = 4)
    (by decide +kernel)
  obtain ⟨hloaded, hcompiled⟩ := compileTree_framing framedSource tree
  cases hcompile : (compileTree {} framedSource tree).result with
  | error e =>
    rw [hcompile] at hp
    cases hp
  | ok assembly =>
    rw [hcompile] at hp
    obtain ⟨table, hload, hframes⟩ := hcompiled {} assembly hcompile
    obtain ⟨hframed, houtwards⟩ := hloaded table hload
    have hsize : table.size = 4 := hframes.length_eq.trans (of_decide_eq_true hp)
    exact ⟨tree, table, assembly, hparse, hload, hcompile, hsize, hframed,
      (houtwards 2 (hsize ▸ (by decide : 2 < 4))).1, hframes⟩

end Bies
