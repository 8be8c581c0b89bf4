import Bies.Proofs.Deferral
import Bies.Proofs.SingleEmission

/-!
# The number of a node tells which node it is

Nodes are shared between the sequences of functions, blocks and the bodies of lambdas, and lowering knows them by their
numbers only. In a loaded table a number belongs to one node, which stands inside one other node at most and in one
sequence at most, once in each.
-/

namespace Bies

open Loading

/-! ## Descendants -/

namespace Node

variable {c p n m : Node}

def IsChild (c p : Node) : Prop := c ∈ p.children

def Descends : Node → Node → Prop := Relation.TransGen IsChild

theorem descends_iff : m.Descends n ↔ m ∈ n.inside true := by
  have hpart : IsPart true = IsChild := by
    funext c p
    simp [IsPart, IsChild]
  rw [mem_inside_iff, hpart, Descends]

theorem not_descends_self (n : Node) : ¬ n.Descends n := fun h => Nat.lt_irrefl _ (length_inside_lt (descends_iff.mp h))

theorem contains_iff_descends {i : NodeId} : n.contains i = true ↔ ∃ m : Node, m.Descends n ∧ m.id = i := by
  rw [contains_iff, List.mem_map]
  exact exists_congr fun m => and_congr_left fun _ => descends_iff.symm

end Node

/-! ## Nodes of a table -/

namespace FunctionTable

/-- The node is an entry of some sequence or stands inside one. -/
inductive Reaches (t : FunctionTable) : Node → Prop
  | entry {f : FunctionId} {n : Node} : t.Holds f n → Reaches t n
  | child {p c : Node} : Reaches t p → c ∈ p.children → Reaches t c

/-- Nodes are known by their numbers. -/
structure Identified (t : FunctionTable) : Prop where
  /-- A number belongs to one node. -/
  node : ∀ {n m}, t.Reaches n → t.Reaches m → n.id = m.id → n = m
  /-- A node stands inside one other node at most, and once. -/
  parent : ∀ {p q c d : Node} {i j : Nat}, t.Reaches p → t.Reaches q → p.children[i]? = some c →
    q.children[j]? = some d →
    c.id = d.id → p = q ∧ i = j
  /-- A node stands in one sequence at most, and once. -/
  position : ∀ {f g : FunctionId} {r q : FunctionRecord} {n m : Node} {i j : Nat}, t.records[f]? = some r →
    t.records[g]? = some q → r.sequence[i]? = some n → q.sequence[j]? = some m → n.id = m.id → f = g ∧ i = j
  /-- No node is found inside itself. -/
  irrefl : ∀ {n}, t.Reaches n → n.contains n.id = false
  /-- A number is found in a node exactly if it is that of a descendant. -/
  contains : ∀ {n i}, t.Reaches n → (n.contains i = true ↔ ∃ m : Node, m.Descends n ∧ m.id = i)

theorem Reaches.descends {t : FunctionTable} {n m : Node} (h : t.Reaches n) (hm : m.Descends n) : t.Reaches m := by
  induction hm using Relation.TransGen.head_induction_on with
  | single hchild => exact .child h hchild
  | head hchild _ ih => exact .child ih hchild

end FunctionTable

theorem Loading.Registered.exists_of_reaches {held : List Made} {s : Ledger} {n : Node} (h : Registered held s)
    (hn : s.table.Reaches n) : ∃ f, Made.mk f n ∈ s.made := by
  induction hn with
  | entry he => exact ⟨_, h.entries he⟩
  | child _ hc ih =>
    obtain ⟨f, hp⟩ := ih
    exact ⟨_, h.inner _ hp _ hc⟩

namespace FunctionTable

/-- An entry has its number to itself among the entries of all sequences. -/
theorem Distinct.position_unique {t : FunctionTable} (h : t.Distinct) {f g : FunctionId} {r q : FunctionRecord}
    {n m : Node} {i j : Nat} (hf : t.records[f]? = some r) (hg : t.records[g]? = some q)
    (hn : r.sequence[i]? = some n) (hm : q.sequence[j]? = some m) (hid : n.id = m.id) : f = g ∧ i = j := by
  have hfg : f = g := by
    by_contra hne
    refine h.across ⟨r, hf, List.mem_of_getElem? hn⟩ ⟨q, hg, List.mem_of_getElem? hm⟩ hne
      (Node.id_mem_ownIds n) ?_
    exact hid ▸ Node.id_mem_ownIds m
  subst hfg
  obtain rfl := Option.some.inj (hf.symm.trans hg)
  refine ⟨rfl, ?_⟩
  have hlt : ∀ {i j : Nat} {n m : Node}, r.sequence[i]? = some n → r.sequence[j]? = some m →
    n.id = m.id → ¬ i < j := by
    intro i j n m hn hm hid hij
    obtain ⟨hi, rfl⟩ := List.getElem?_eq_some_iff.mp hn
    obtain ⟨hj, rfl⟩ := List.getElem?_eq_some_iff.mp hm
    have hleads := List.pairwise_iff_getElem.mp (h.before hf) i j hi hj hij
    exact Lowering.id_ne_of_leads hleads (h.nodup ⟨r, hf, List.getElem_mem hj⟩) hid.symm
  exact Nat.le_antisymm (Nat.not_lt.mp (hlt hm hn hid.symm)) (Nat.not_lt.mp (hlt hn hm hid))

/-- Whatever tree is loaded, the nodes of its table are known by their numbers. -/
theorem identified_of_ofTree {source : List Char} {tree : Tree} {table : FunctionTable}
    (h : (ofProgram (.ofTree source tree)).result = .ok table) : table.Identified := by
  obtain ⟨nodes, s, hload, rfl⟩ := loaded_of_ofProgram h
  have hr := hload.registered registered_initial
  have hnode : ∀ {n m}, s.table.Reaches n → s.table.Reaches m → n.id = m.id → n = m := by
    intro n m hn hm hid
    obtain ⟨f, hf⟩ := hr.exists_of_reaches hn
    obtain ⟨g, hg⟩ := hr.exists_of_reaches hm
    exact congrArg Made.node (hr.eq_of_id_eq hf hg hid)
  refine ⟨hnode, ?_, (distinct_of_ofProgram h).position_unique, ?_, fun _ => Node.contains_iff_descends⟩
  · intro p q c d i j hp hq hi hj hid
    obtain ⟨f, hf⟩ := hr.exists_of_reaches hp
    obtain ⟨g, hg⟩ := hr.exists_of_reaches hq
    obtain ⟨heq, hij⟩ := hr.parent_unique hf hg hi hj hid
    exact ⟨congrArg Made.node heq, hij⟩
  · intro n hn
    rw [Bool.eq_false_iff]
    intro hcontains
    obtain ⟨m, hm, hid⟩ := Node.contains_iff_descends.mp hcontains
    rw [hnode (hn.descends hm) hn hid] at hm
    exact n.not_descends_self hm

def sharedSource : List Char := "let f = (x) => { if (x > 0) { let b = x print(b) } return (z) => x } print(f(3))".toList

theorem identified_of_sharedSource : ∃ tree table, Tree.parse sharedSource = .ok tree ∧
    (ofProgram (.ofTree sharedSource tree)).result = .ok table ∧ table.Identified ∧
    ∃ n m, table.Holds 1 n ∧ table.Holds 1 m ∧ n.contains m.id = true := by
  obtain ⟨tree, table, hparse, hload, hp⟩ := exists_of_ofSource? sharedSource (p := fun t =>
    t.records[1]?.any fun r => r.sequence.any fun n => r.sequence.any fun m => n.contains m.id) (by decide +kernel)
  obtain ⟨r, hr, hp⟩ := (Option.any_eq_true _ _).mp hp
  obtain ⟨n, hn, hp⟩ := List.any_eq_true.mp hp
  obtain ⟨m, hm, hp⟩ := List.any_eq_true.mp hp
  exact ⟨tree, table, hparse, hload, identified_of_ofTree hload, n, m, ⟨r, hr, hn⟩, ⟨r, hr, hm⟩, hp⟩

end FunctionTable

end Bies
