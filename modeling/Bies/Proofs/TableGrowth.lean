import Bies.FunctionTable
import Bies.Proofs.Node
import Mathlib.Data.List.Nodup

/-!
# How a table grows

Statements of a function leave entries in its sequence and new functions at the end of the table. A declaration
inside a statement is an entry of its own, before the statement.
-/

namespace Bies

/-! ## Entries -/

mutual

def Node.nested : Node → List Node
  | .letIn _ decls body => Node.nestedAll decls ++ body.nested
  | .block _ statements => Node.nestedAll statements
  | .ifThen _ _ body => body.nested
  | .ifElse _ _ body last | .ifElseIf _ _ body last => body.nested ++ last.nested
  | _ => []

def Node.nestedAll : List Node → List Node
  | [] => []
  | n :: rest => n.nested ++ (if n.isDecl then [n] else []) ++ Node.nestedAll rest

end

def Node.entries (statements : List Node) : List Node := statements.flatMap fun n => n.nested ++ [n]

mutual

theorem Node.nested_subset : ∀ n : Node, n.nested ⊆ n.inside true
  | .letIn _ decls body => by
    intro m hm
    rcases List.mem_append.mp hm with hm | hm
    · exact List.mem_append_left _ (Node.nestedAll_subset decls hm)
    · exact List.mem_append_right _ (List.mem_cons_of_mem _ (body.nested_subset hm))
  | .block _ statements => Node.nestedAll_subset statements
  | .ifThen _ _ body => by
    intro m hm
    exact List.mem_append_right _ (List.mem_cons_of_mem _ (body.nested_subset hm))
  | .ifElse _ _ body last | .ifElseIf _ _ body last => by
    intro m hm
    rcases List.mem_append.mp hm with hm | hm
    · exact List.mem_append_left _ (List.mem_append_right _ (List.mem_cons_of_mem _ (body.nested_subset hm)))
    · exact List.mem_append_right _ (List.mem_cons_of_mem _ (last.nested_subset hm))
  | .decl .. | .binary .. | .comparison .. | .funDecl .. | .lambda .. | .call .. | .print .. | .ret .. | .access ..
  | .list .. | .int .. | .float .. | .str .. | .ident .. => List.nil_subset _

theorem Node.nestedAll_subset : ∀ nodes : List Node, Node.nestedAll nodes ⊆ Node.insideAll true nodes
  | [] => List.nil_subset _
  | n :: rest => by
    intro m hm
    simp only [Node.nestedAll, List.mem_append] at hm
    rcases hm with (hm | hm) | hm
    · exact List.mem_append_left _ (List.mem_cons_of_mem _ (n.nested_subset hm))
    · have : m = n := by
        split at hm
        · exact List.mem_singleton.mp hm
        · cases hm
      exact List.mem_append_left _ (this ▸ List.mem_cons_self)
    · exact List.mem_append_right _ (Node.nestedAll_subset rest hm)

end

/-! ## New functions -/

def FunctionTable.extend (t : FunctionTable) (f : FunctionId) (entries : List Node) (new : List FunctionRecord) :
    FunctionTable :=
  ⟨t.records.modify f (fun r => { r with sequence := r.sequence ++ entries }) ++ new⟩

def FunctionTable.names (t : FunctionTable) : List String := t.records.map (·.name)

namespace FunctionTable

variable {t : FunctionTable} {f : FunctionId} {entries more : List Node} {new newer : List FunctionRecord}

@[simp] theorem size_extend : (t.extend f entries new).size = t.size + new.length := by
  simp [extend, size]

theorem names_extend : (t.extend f entries new).names = t.names ++ new.map (·.name) := by
  unfold extend names
  rw [List.map_append]
  congr 1
  apply List.ext_getElem?
  intro k
  simp only [List.getElem?_map, List.getElem?_modify]
  cases t.records[k]? with
  | none => rfl
  | some r => by_cases h : f = k <;> simp [h]

theorem modify_append {α : Type} {g : α → α} : ∀ {xs : List α} (ys : List α) {k : Nat}, k < xs.length →
    (xs ++ ys).modify k g = xs.modify k g ++ ys
  | _ :: _, _, 0, _ => rfl
  | x :: _, ys, _ + 1, h => congrArg (x :: ·) (modify_append ys (Nat.lt_of_succ_lt_succ h))

theorem extend_nil : t.extend f [] [] = t := by
  have hself : (fun r : FunctionRecord => { r with sequence := r.sequence ++ [] }) = id := by
    funext r
    rw [List.append_nil]
    rfl
  rw [extend, hself, List.modify_id, List.append_nil]

theorem extend_extend (hf : f < t.size) :
    (t.extend f entries new).extend f more newer = t.extend f (entries ++ more) (new ++ newer) := by
  unfold extend
  dsimp only
  have hlength : f < (t.records.modify f fun r => { r with sequence := r.sequence ++ entries }).length := by
    rw [List.length_modify]
    exact hf
  rw [modify_append new hlength, List.modify_modify_eq, List.append_assoc]
  simp only [Function.comp_def, List.append_assoc]

theorem append_eq_extend (n : Node) : t.append f n = t.extend f [n] [] :=
  congrArg FunctionTable.mk (List.append_nil _).symm

theorem modify_concat {α : Type} (g : α → α) (x : α) :
    ∀ (xs : List α), (xs ++ [x]).modify xs.length g = xs ++ [g x]
  | [] => rfl
  | y :: xs => congrArg (y :: ·) (modify_concat g x xs)

theorem modify_last {r : FunctionRecord} (g : FunctionRecord → FunctionRecord) :
    (t.extend f [] [r]).records.modify t.size g = (t.extend f [] [g r]).records := by
  unfold extend
  dsimp only
  rw [← modify_concat g, List.length_modify]
  rfl

theorem clear_last {r : FunctionRecord} (h : r.sequence = []) :
    (t.extend f [] [r]).clear t.size = t.extend f [] [r] := by
  rw [clear, modify_last, ← h]

theorem extend_last {r : FunctionRecord} :
    (t.extend f [] [r]).extend t.size entries new = t.extend f []
      ({ r with sequence := r.sequence ++ entries } :: new) := by
  rw [extend, modify_last, extend, extend]
  simp only [List.append_assoc, List.cons_append, List.nil_append]

theorem declare_new {name : String} (h : name ∉ t.names) (params : List String) :
    t.declare name params f = (t.size, t.extend f [] [⟨t.size, name, params, some f, []⟩]) := by
  have hnone : t.get? name = none := by
    rw [get?, List.find?_eq_none]
    intro r hr
    have hne : r.name ≠ name := fun heq => h (heq ▸ List.mem_map_of_mem hr)
    simpa using hne
  have hrecords : t.records = (t.extend f [] []).records := by rw [extend_nil]
  rw [declare, hnone]
  dsimp only
  rw [hrecords, extend, extend, List.append_nil]

end FunctionTable

/-! ## Records -/

namespace Loading

open FunctionTable

theorem records_append {t : FunctionTable} {f g : FunctionId} {n : Node} {r' : FunctionRecord}
    (h : (t.append f n).records[g]? = some r') :
    ∃ r, t.records[g]? = some r ∧ r' = if f = g then { r with sequence := r.sequence ++ [n] } else r := by
  rw [FunctionTable.append, List.getElem?_modify] at h
  obtain ⟨r, hr, rfl⟩ := Option.map_eq_some_iff.mp h
  exact ⟨r, hr, rfl⟩

theorem records_clear {t : FunctionTable} {f g : FunctionId} {r' : FunctionRecord}
    (h : (t.clear f).records[g]? = some r') :
    ∃ r, t.records[g]? = some r ∧ (r' = r ∨ r' = { r with sequence := [] }) := by
  rw [FunctionTable.clear, List.getElem?_modify] at h
  obtain ⟨r, hr, rfl⟩ := Option.map_eq_some_iff.mp h
  refine ⟨r, hr, ?_⟩
  split
  · exact .inr rfl
  · exact .inl rfl

theorem records_declare {t : FunctionTable} {name : String} {params : List String} {parent g : FunctionId}
    {r' : FunctionRecord} (h : (t.declare name params parent).2.records[g]? = some r') :
    (∃ r, t.records[g]? = some r ∧ (r' = r ∨ r' = { r with params })) ∨
      g = t.size ∧ r' = ⟨t.size, name, params, some parent, []⟩ := by
  unfold FunctionTable.declare at h
  split at h
  · rw [List.getElem?_map] at h
    obtain ⟨r, hr, rfl⟩ := Option.map_eq_some_iff.mp h
    refine .inl ⟨r, hr, ?_⟩
    split
    · exact .inr rfl
    · exact .inl rfl
  · rcases Nat.lt_or_ge g t.records.length with hlt | hge
    · rw [List.getElem?_append_left hlt] at h
      exact .inl ⟨r', h, .inl rfl⟩
    · rw [List.getElem?_append_right hge, List.getElem?_singleton] at h
      split at h
      next hg => exact .inr ⟨Nat.le_antisymm (Nat.le_of_sub_eq_zero hg) hge, (Option.some.inj h).symm⟩
      next => cases h

theorem declare_lt {t : FunctionTable} {name : String} {params : List String} {parent : FunctionId}
    (hnumbered : ∀ {g : FunctionId} {r : FunctionRecord}, t.records[g]? = some r → r.id = g) :
    (t.declare name params parent).1 < (t.declare name params parent).2.size := by
  unfold FunctionTable.declare
  split
  next r hr =>
    obtain ⟨f, hf⟩ := List.getElem?_of_mem (List.mem_of_find?_eq_some hr)
    have hlt : f < t.records.length := (List.getElem?_eq_some_iff.mp hf).1
    simpa [size, hnumbered hf] using hlt
  next => simp [size]

theorem size_le_declare (t : FunctionTable) (name : String) (params : List String) (parent : FunctionId) :
    t.size ≤ (t.declare name params parent).2.size := by
  unfold FunctionTable.declare
  split <;> simp [size]

theorem size_append {f : FunctionId} {n : Node} (t : FunctionTable) : (t.append f n).size = t.size := by
  simp [FunctionTable.append, FunctionTable.size]

theorem size_clear {f : FunctionId} (t : FunctionTable) : (t.clear f).size = t.size := by
  simp [FunctionTable.clear, FunctionTable.size]

end Loading

namespace FunctionTable

open Loading

def Holds (t : FunctionTable) (f : FunctionId) (n : Node) : Prop :=
  ∃ r, t.records[f]? = some r ∧ n ∈ r.sequence

variable {t : FunctionTable} {f g : FunctionId} {n e : Node} {name : String} {params : List String} {parent : FunctionId}

theorem not_holds_initial : ¬ initial.Holds f n := by
  rintro ⟨r, hr, hn⟩
  obtain rfl := List.mem_singleton.mp (List.mem_of_getElem? hr)
  cases hn

theorem holds_append (h : (t.append f n).Holds g e) : t.Holds g e ∨ (g = f ∧ e = n) := by
  obtain ⟨r', hr', he⟩ := h
  obtain ⟨r, hr, rfl⟩ := records_append hr'
  split at he
  next hfg =>
    rcases List.mem_append.mp he with he | he
    · exact Or.inl ⟨r, hr, he⟩
    · exact Or.inr ⟨hfg.symm, List.mem_singleton.mp he⟩
  next => exact Or.inl ⟨r, hr, he⟩

theorem holds_declare (h : (t.declare name params parent).2.Holds f n) : t.Holds f n := by
  obtain ⟨r', hr', hn⟩ := h
  rcases records_declare hr' with ⟨r, hr, rfl | rfl⟩ | ⟨-, rfl⟩
  · exact ⟨_, hr, hn⟩
  · exact ⟨_, hr, hn⟩
  · cases hn

theorem holds_clear (h : (t.clear g).Holds f n) : t.Holds f n := by
  obtain ⟨r', hr', hn⟩ := h
  obtain ⟨r, hr, rfl | rfl⟩ := records_clear hr'
  · exact ⟨_, hr, hn⟩
  · cases hn

/-! ## Names -/

theorem getElem?_names : t.names[f]? = t.records[f]?.map (·.name) := List.getElem?_map

theorem names_modify {change : FunctionRecord → FunctionRecord} (hc : ∀ r, (change r).name = r.name) :
    (FunctionTable.mk (t.records.modify f change)).names = t.names := by
  apply List.ext_getElem?
  intro k
  simp only [getElem?_names, List.getElem?_modify]
  by_cases h : f = k <;> cases t.records[k]? <;> simp [h, hc]

theorem names_append : (t.append f n).names = t.names := names_modify fun _ => rfl

theorem names_clear : (t.clear f).names = t.names := names_modify fun _ => rfl

theorem get?_eq_none_iff : t.get? name = none ↔ name ∉ t.names := by
  simp [get?, names]

theorem names_declare_of_mem (h : name ∈ t.names) : (t.declare name params parent).2.names = t.names := by
  unfold declare
  cases hr : t.get? name with
  | none => exact absurd h (get?_eq_none_iff.mp hr)
  | some r =>
    simp only [names, List.map_map]
    apply List.map_congr_left
    intro r _
    by_cases hname : r.name = name <;> simp [hname]

theorem names_declare_of_notMem (h : name ∉ t.names) : (t.declare name params parent).2.names = t.names ++ [name] := by
  rw [declare, get?_eq_none_iff.mpr h]
  simp [names]

theorem mem_names_declare {y : String} (h : y ∈ (t.declare name params parent).2.names) :
    y ∈ t.names ∨ y = name := by
  by_cases hname : name ∈ t.names
  · exact .inl (names_declare_of_mem hname ▸ h)
  · rw [names_declare_of_notMem hname] at h
    simpa using h

theorem names_prefix_declare : t.names <+: (t.declare name params parent).2.names := by
  by_cases h : name ∈ t.names
  · simp [names_declare_of_mem h]
  · rw [names_declare_of_notMem h]
    exact List.prefix_append _ _

structure Numbered (t : FunctionTable) : Prop where
  id_eq : ∀ {f : FunctionId} {r : FunctionRecord}, t.records[f]? = some r → r.id = f
  nodup : t.names.Nodup

theorem Numbered.modify {change : FunctionRecord → FunctionRecord} (h : t.Numbered)
    (hn : ∀ r, (change r).name = r.name) (hi : ∀ r, (change r).id = r.id) :
    (FunctionTable.mk (t.records.modify f change)).Numbered where
  id_eq {g r'} hr' := by
    rw [List.getElem?_modify] at hr'
    obtain ⟨r, hr, rfl⟩ := Option.map_eq_some_iff.mp hr'
    split
    · rw [hi, h.id_eq hr]
    · exact h.id_eq hr
  nodup := by
    rw [names_modify hn]
    exact h.nodup

theorem Numbered.append (h : t.Numbered) : (t.append f n).Numbered := h.modify (fun _ => rfl) fun _ => rfl

theorem Numbered.clear (h : t.Numbered) : (t.clear f).Numbered := h.modify (fun _ => rfl) fun _ => rfl

theorem Numbered.declare (h : t.Numbered) : (t.declare name params parent).2.Numbered where
  id_eq {g r'} hr' := by
    rcases records_declare hr' with ⟨r, hr, rfl | rfl⟩ | ⟨rfl, rfl⟩
    · exact h.id_eq hr
    · exact (h.id_eq hr :)
    · rfl
  nodup := by
    by_cases hmem : name ∈ t.names
    · rw [names_declare_of_mem hmem]
      exact h.nodup
    · rw [names_declare_of_notMem hmem]
      exact h.nodup.append (List.nodup_singleton _) (List.disjoint_singleton.mpr hmem)

theorem numbered_initial : initial.Numbered where
  id_eq {f r} hr := by
    obtain ⟨rfl, rfl⟩ : f = 0 ∧ _ = r := by simpa [initial, List.getElem?_singleton] using hr
    rfl
  nodup := List.nodup_singleton _

theorem name_declare (hnumbered : ∀ {g : FunctionId} {r : FunctionRecord}, t.records[g]? = some r → r.id = g) :
    (t.declare name params parent).2.names[(t.declare name params parent).1]? = some name := by
  by_cases h : name ∈ t.names
  · rw [names_declare_of_mem h]
    unfold declare
    cases hr : t.get? name with
    | none => exact absurd h (get?_eq_none_iff.mp hr)
    | some r =>
      obtain ⟨g, hg⟩ := List.getElem?_of_mem (List.mem_of_find?_eq_some hr)
      have hname : r.name = name := by simpa using List.find?_some hr
      show t.names[r.id]? = some name
      rw [getElem?_names, hnumbered hg, hg, Option.map_some, hname]
  · rw [names_declare_of_notMem h, declare, get?_eq_none_iff.mpr h]
    simp [size, names]

end FunctionTable

end Bies
