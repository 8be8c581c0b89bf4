import Bies.Compile
import Bies.Proofs.Deferral
import Bies.Proofs.ParsedNames

/-!
# Every statement is lowered once

On a table whose entries share nodes only as a loaded program's do, looking ahead and remembering what
has been lowered comes to the same as plain lowering: an entry is deferred exactly if it stands inside a
later entry of its sequence, and what is lowered has not been lowered before.
-/

namespace Bies

namespace Lowering

open Plain

section
variable {n : Node} {rest later : List Node}

theorem isConsumed_eq (hbefore : ∀ m ∈ rest, n.Before m) (hnodup : ∀ m ∈ rest, m.ids.Nodup)
    (hacross : ∀ m ∈ later, n.Across m) : isConsumed n (rest ++ later) = rest.any (·.contains n.id) := by
  rw [Bool.eq_iff_iff]
  simp only [isConsumed, Bool.and_eq_true, List.any_eq_true, bne_iff_ne, List.mem_append]
  constructor
  · rintro ⟨_, m, hm | hm, _, hcontains⟩
    · exact ⟨m, hm, hcontains⟩
    · exact absurd (Node.mem_ids_of_contains hcontains) (hacross m hm).id_notMem
  · rintro ⟨m, hm, hcontains⟩
    rcases hbefore m hm with hd | hd
    · exact absurd (Node.mem_ids_of_contains hcontains) (hd (Node.id_mem_ids n))
    · exact ⟨isDeferrable_of_isDecl hd.1, m, Or.inl hm, id_ne_of_leads (hbefore m hm).leads
      ((hnodup m hm).sublist (Node.ownIds_sublist m)), hcontains⟩

theorem disjoint_of_not_contains {m : Node} (h : n.Before m) (hnot : m.contains n.id = false) :
    n.ids.Disjoint m.ids := by
  rcases h with hd | hd
  · exact hd
  · have : m.contains n.id = true :=
      Node.contains_iff.mpr (List.mem_map_of_mem ((Node.inside_sublist m).subset hd.2))
    rw [this] at hnot; cases hnot

end

/-- The entries that are not put off are the roots. -/
theorem kept_eq_roots {later : List Node} :
    ∀ {entries : List Node}, entries.Pairwise Node.Before → (∀ n ∈ entries, n.ids.Nodup) →
    (∀ n ∈ entries, ∀ m ∈ later, n.Across m) → kept later entries = roots entries
  | [], _, _, _ => rfl
  | n :: rest, hbefore, hnodup, hacross => by
    obtain ⟨hn, hrest⟩ := List.pairwise_cons.mp hbefore
    have hnodup' : ∀ m ∈ rest, m.ids.Nodup := fun m hm => hnodup m (List.mem_cons_of_mem n hm)
    have ih := kept_eq_roots hrest hnodup' fun m hm => hacross m (List.mem_cons_of_mem n hm)
    rw [kept, roots, isConsumed_eq hn hnodup' (hacross n List.mem_cons_self), ih]

theorem keptFunctions_eq (table : FunctionTable) (options : Options) : ∀ {records : List FunctionRecord},
    (∀ r ∈ records, r.sequence.Pairwise Node.Before) → (∀ r ∈ records, ∀ n ∈ r.sequence, n.ids.Nodup) →
    (records.Pairwise fun r q => ∀ e ∈ r.sequence, ∀ m ∈ q.sequence, e.Across m) →
    functions kept table options records = functions (fun _ => roots) table options records
  | [], _, _, _ => rfl
  | r :: rest, hbefore, hnodup, hacross => by
    obtain ⟨hr, hrest⟩ := List.pairwise_cons.mp hacross
    have hlater : ∀ n ∈ r.sequence, ∀ m ∈ rest.flatMap (·.sequence), n.Across m := by
      intro n hn m hm
      obtain ⟨q, hq, hmq⟩ := List.mem_flatMap.mp hm
      exact hr q hq n hn m hmq
    have hkept := kept_eq_roots (hbefore r List.mem_cons_self) (hnodup r List.mem_cons_self) hlater
    have ih := keptFunctions_eq table options (fun q hq => hbefore q (List.mem_cons_of_mem r hq))
      (fun q hq => hnodup q (List.mem_cons_of_mem r hq)) hrest
    rw [functions, functions, hkept, ih]

end Lowering

namespace FunctionTable.Separated

variable {table : FunctionTable}

theorem nodup_of_mem (h : table.Separated) {r : FunctionRecord} (hr : r ∈ table.records) :
    ∀ n ∈ r.sequence, n.ids.Nodup := by
  intro n hn
  obtain ⟨f, hf⟩ := List.getElem?_of_mem hr
  exact h.nodup ⟨r, hf, hn⟩

theorem before_of_mem (h : table.Separated) {r : FunctionRecord} (hr : r ∈ table.records) :
    r.sequence.Pairwise Node.Before := by
  obtain ⟨f, hf⟩ := List.getElem?_of_mem hr
  exact h.before hf

theorem pairwise (h : table.Separated) :
    table.records.Pairwise fun r q => ∀ e ∈ r.sequence, ∀ m ∈ q.sequence, e.Across m := by
  rw [List.pairwise_iff_getElem]
  intro f g hf hg hlt e he m hm
  exact h.across ⟨_, List.getElem?_eq_getElem hf, he⟩ ⟨_, List.getElem?_eq_getElem hg, hm⟩ hlt

theorem distinct (h : table.Separated) : table.Distinct where
  nodup he := (h.nodup he).sublist (Node.ownIds_sublist _)
  before hr := (h.before hr).imp Node.Before.leads
  across he hm hne := by
    rcases Nat.lt_or_gt_of_ne hne with hlt | hlt
    · exact (h.across he hm hlt).ownIds
    · exact fun i hie him => (h.across hm he hlt).ownIds him hie

end FunctionTable.Separated

/-- Lowering with visits and lookahead is plain lowering where nodes are shared as in a loaded table. -/
theorem Assembly.ofTable_eq_plain {table : FunctionTable} (options : Options) (h : table.Separated) :
    Assembly.ofTable table options = Assembly.plain table options := by
  have hall := h.distinct.tracks options
  rw [Lowering.keptFunctions_eq table options (fun r hr => h.before_of_mem hr) (fun r hr => h.nodup_of_mem hr)
    h.pairwise] at hall
  have hlower : Lowering.Tracks _ _ (Lowering.lower table options) (Lowering.Plain.lower table options) :=
    hall.bind_any (b := []) fun functions => .read fun s t hst => by rw [hst.skipped]; exact .ret _
  have := hlower { frames := .ofTable table } { frames := .ofTable table } ⟨rfl, rfl, rfl⟩
    fun n _ => ⟨by simp, fun i _ => by simp⟩
  unfold Assembly.ofTable Assembly.plain Outcome.ofRun
  cases hx : (Lowering.lower table options).run { frames := .ofTable table } <;>
    cases hy : (Lowering.Plain.lower table options).run { frames := .ofTable table } <;> rw [hx, hy] at this
  · obtain ⟨rfl, hst, _⟩ := this
    simp [hst.events]
  · exact absurd this id
  · exact absurd this id
  · obtain ⟨rfl, hst⟩ := this
    simp [hst.events]

/-! ## What plain lowering comes upon -/

namespace Lowering.Plain

theorem roots_sublist (entries : List Node) : (roots entries).Sublist entries := by
  induction entries with
  | nil => exact .slnil
  | cons n rest ih =>
    unfold roots
    split
    · exact ih.cons n
    · exact ih.cons_cons n

theorem roots_disjoint : ∀ {entries : List Node}, entries.Pairwise Node.Before →
    (roots entries).Pairwise fun n m => n.ids.Disjoint m.ids
  | [], _ => .nil
  | n :: rest, h => by
    obtain ⟨hn, hrest⟩ := List.pairwise_cons.mp h
    unfold roots
    split
    next => exact roots_disjoint hrest
    next hany =>
      refine List.pairwise_cons.mpr ⟨fun m hm => ?_, roots_disjoint hrest⟩
      have hmem := (roots_sublist rest).subset hm
      exact disjoint_of_not_contains (hn m hmem) (by simpa using fun h => hany (List.any_eq_true.mpr ⟨m, hmem, h⟩))

theorem exists_root : ∀ {entries : List Node}, entries.Pairwise Node.Before →
    ∀ n ∈ entries, ∃ m ∈ roots entries, n = m ∨ n ∈ m.inside false
  | [], _, n, hn => by cases hn
  | e :: rest, h, n, hn => by
    obtain ⟨he, hrest⟩ := List.pairwise_cons.mp h
    have inRest : ∀ k ∈ rest, ∃ m ∈ roots rest, k = m ∨ k ∈ m.inside false := exists_root hrest
    unfold roots
    rcases List.mem_cons.mp hn with rfl | hn
    · split
      next hany =>
        obtain ⟨k, hk, hcontains⟩ := List.any_eq_true.mp hany
        have hin : n ∈ k.inside false := by
          rcases he k hk with hd | hd
          · exact absurd (Node.mem_ids_of_contains hcontains) (hd (Node.id_mem_ids n))
          · exact hd.2
        obtain ⟨m, hm, rfl | hkm⟩ := inRest k hk
        · exact ⟨k, hm, Or.inr hin⟩
        · exact ⟨m, hm, Or.inr (Node.inside_trans hkm hin)⟩
      next => exact ⟨n, List.mem_cons_self, Or.inl rfl⟩
    · obtain ⟨m, hm, hnm⟩ := inRest n hn
      split
      · exact ⟨m, hm, hnm⟩
      · exact ⟨m, List.mem_cons_of_mem e hm, hnm⟩

theorem nodup_roots {table : FunctionTable} (h : table.Separated) :
    (table.records.flatMap fun r => (roots r.sequence).flatMap Node.ownIds).Nodup := by
  rw [List.nodup_flatMap]
  constructor
  · intro r hr
    rw [List.nodup_flatMap]
    refine ⟨fun n hn => ?_, (roots_disjoint (h.before_of_mem hr)).imp fun {n m} hd i hn hm =>
      hd ((Node.ownIds_sublist n).subset hn) ((Node.ownIds_sublist m).subset hm)⟩
    exact (h.nodup_of_mem hr n ((roots_sublist _).subset hn)).sublist (Node.ownIds_sublist n)
  · refine h.pairwise.imp fun {r q} hacross i hir hiq => ?_
    obtain ⟨e, he, hie⟩ := List.mem_flatMap.mp hir
    obtain ⟨m, hm, him⟩ := List.mem_flatMap.mp hiq
    exact (hacross e ((roots_sublist _).subset he) m ((roots_sublist _).subset hm)).ownIds hie him

end Lowering.Plain

/-! ## Sources -/

/-- Whatever source is parsed and loaded, lowering its table is plain lowering: it tells and gives the same,
comes upon no node twice, and leaves out no entry. Spans are pairs of 32-bit offsets, so they say what they
should only in a source of less than 2³² bytes. -/
theorem Assembly.ofTable_eq_plain_of_parse {source : List Char} {tree : Tree} {table : FunctionTable}
    (hsize : byteLength source < 2 ^ 32) (hparse : Tree.parse source = .ok tree)
    (hload : (FunctionTable.ofProgram (.ofTree source tree)).result = .ok table) (options : Options) :
    Assembly.ofTable table options = Assembly.plain table options ∧
      (table.records.flatMap fun r => (Lowering.Plain.roots r.sequence).flatMap Node.ownIds).Nodup ∧
      ∀ r ∈ table.records, ∀ n ∈ r.sequence,
        ∃ m ∈ Lowering.Plain.roots r.sequence, n = m ∨ n ∈ m.inside false := by
  have h := FunctionTable.separated_of_ofProgram (Program.plainNames_of_parse hsize hparse) hload
  exact ⟨Assembly.ofTable_eq_plain options h, Lowering.Plain.nodup_roots h,
    fun r hr => Lowering.Plain.exists_root (h.before_of_mem hr)⟩

def FunctionTable.ofSource? (source : List Char) : Option FunctionTable := do
  let tree ← (Tree.parse source).toOption
  (FunctionTable.ofProgram (.ofTree source tree)).result.toOption

theorem FunctionTable.exists_of_ofSource? (source : List Char) {p : FunctionTable → Bool}
    (h : (ofSource? source).any p = true) : ∃ tree table, Tree.parse source = .ok tree ∧
      (FunctionTable.ofProgram (.ofTree source tree)).result = .ok table ∧ p table = true := by
  unfold ofSource? at h
  cases hparse : Tree.parse source with
  | error e => rw [hparse] at h; cases h
  | ok tree =>
    rw [hparse] at h
    cases hload : (FunctionTable.ofProgram (.ofTree source tree)).result with
    | error e => simp [Except.toOption, hload] at h
    | ok table => exact ⟨tree, table, rfl, hload, by simpa [Except.toOption, hload] using h⟩

/-- A block in a block, and a block in the body of a lambda: four entries and two, of which two and one are
roots. -/
theorem Assembly.ofTable_eq_plain_of_nestedBlocks : ∃ tree table,
    Tree.parse "{ let a = 1 { let b = a } } print((x) => { { let c = x } })".toList = .ok tree ∧
    (FunctionTable.ofProgram (.ofTree "{ let a = 1 { let b = a } } print((x) => { { let c = x } })".toList
      tree)).result = .ok table ∧
    table.records.map (fun r => (r.sequence.length, (Lowering.Plain.roots r.sequence).length)) = [(4, 2), (2, 1)] ∧
    Assembly.ofTable table {} = Assembly.plain table {} := by
  obtain ⟨tree, table, hparse, hload, hcount⟩ := FunctionTable.exists_of_ofSource?
    "{ let a = 1 { let b = a } } print((x) => { { let c = x } })".toList
    (p := fun table => table.records.map
      (fun r => (r.sequence.length, (Lowering.Plain.roots r.sequence).length)) = [(4, 2), (2, 1)])
    (by decide +kernel)
  exact ⟨tree, table, hparse, hload, of_decide_eq_true hcount,
    (ofTable_eq_plain_of_parse (by decide) hparse hload {}).1⟩

end Bies
