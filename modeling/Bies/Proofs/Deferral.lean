import Bies.Proofs.Sharing
import Bies.Proofs.PlainLowering

/-!
# Entries that are put off

On a table whose entries have their own nodes to themselves, looking ahead and remembering what has been
lowered comes to the same as plain lowering of the entries that are not put off: what is lowered has not
been lowered before, and what is put off stands inside a later node.
-/

namespace Bies
namespace Lowering

open Plain

def kept (later : List Node) : List Node → List Node
  | [] => []
  | n :: rest => if isConsumed n (rest ++ later) then kept later rest else n :: kept later rest

/-- None of the entries has been visited, and nothing in them has been lowered. -/
def Untouched (entries : List Node) (v : Visits) : Prop :=
  ∀ n ∈ entries, v[n.id]? = none ∧ Unlowered n.ownIds v

section
variable {n m : Node} {rest later : List Node}

theorem isDeferrable_of_isDecl (h : n.isDecl = true) : isDeferrable n = true := by
  cases n <;> simp [Node.isDecl, isDeferrable] at h ⊢

theorem id_ne_of_leads (h : n.Leads m) (hm : m.ownIds.Nodup) : m.id ≠ n.id := by
  intro heq
  rcases h with hd | ⟨_, hin⟩
  · exact hd (Node.id_mem_ownIds n) (heq ▸ Node.id_mem_ownIds m)
  · have : n.id ∈ (m.inside false).map Node.id := List.mem_map_of_mem hin
    exact (List.nodup_cons.mp hm).1 (heq ▸ this)

theorem disjoint_of_not_consumed (hn : ∀ m ∈ rest, n.Leads m) (hnodup : ∀ m ∈ rest, m.ownIds.Nodup)
    (hnot : isConsumed n (rest ++ later) = false) : ∀ m ∈ rest, n.ownIds.Disjoint m.ownIds := by
  intro m hm
  rcases hn m hm with hd | ⟨hdecl, hin⟩
  · exact hd
  · have hcontains : m.contains n.id = true :=
      Node.contains_iff.mpr (List.mem_map_of_mem ((Node.inside_sublist m).subset hin))
    have hconsumed : isConsumed n (rest ++ later) = true := by
      rw [isConsumed, isDeferrable_of_isDecl hdecl, Bool.true_and, List.any_eq_true]
      refine ⟨m, List.mem_append_left later hm, ?_⟩
      rw [hcontains, Bool.and_true, bne_iff_ne]
      exact id_ne_of_leads (hn m hm) (hnodup m hm)
    rw [hconsumed] at hnot
    cases hnot

theorem Untouched.defer {u : Visits} (h : Untouched (n :: rest) u) (hn : ∀ m ∈ rest, m.id ≠ n.id) :
    Untouched rest (u.insert n.id .deferred) := by
  intro m hm
  obtain ⟨hunvisited, hunlowered⟩ := h m (List.mem_cons_of_mem n hm)
  constructor
  · rw [getElem?_insert_ne _ _ (hn m hm), hunvisited]
  · intro i hi
    by_cases heq : i = n.id
    · subst heq
      simp
    · rw [getElem?_insert_ne _ _ heq]
      exact hunlowered i hi

theorem Untouched.outside {u v : Visits} {entries : List Node} {ids : List NodeId} (h : Untouched entries u)
    (hout : ∀ m ∈ entries, ids.Disjoint m.ownIds) (hv : ∀ i ∉ ids, v[i]? = u[i]?) : Untouched entries v := by
  intro m hm
  obtain ⟨hunvisited, hunlowered⟩ := h m hm
  constructor
  · rw [hv _ fun hi => hout m hm hi (Node.id_mem_ownIds m), hunvisited]
  · intro i hi
    rw [hv i fun hids => hout m hm hids hi]
    exact hunlowered i hi

theorem Untouched.mono {entries fewer : List Node} {u : Visits} (h : Untouched entries u) (hsub : fewer ⊆ entries) :
    Untouched fewer u := fun n hn => h n (hsub hn)

end

theorem lowerSequence_tracks (c : Context) (later : List Node) : ∀ entries : List Node,
    entries.Pairwise Node.Leads → (∀ n ∈ entries, n.ownIds.Nodup) →
    Tracks (Untouched entries) (entries.flatMap Node.ownIds) (lowerSequence c later entries)
      (stmts c (kept later entries))
  | [], _, _ => by
    unfold lowerSequence kept stmts
    exact .ret _
  | n :: rest, hbefore, hnodup => by
    obtain ⟨hn, hrest⟩ := List.pairwise_cons.mp hbefore
    have hnodup' : ∀ m ∈ rest, m.ownIds.Nodup := fun m hm => hnodup m (List.mem_cons_of_mem n hm)
    have ih := lowerSequence_tracks c later rest hrest hnodup'
    intro s t hst huntouched
    obtain ⟨hunvisited, hunlowered⟩ := huntouched n List.mem_cons_self
    unfold lowerSequence kept
    show Agree _ _ (EStateM.run (if s.visits.contains n.id then _ else _) s) _
    rw [Std.TreeMap.contains_eq_isSome_getElem?, hunvisited, if_neg (by simp)]
    split
    -- a later node holds it: it is put off here, and not lowered there
    next =>
      have hdefer : ∀ u, Untouched (n :: rest) u → Untouched rest (u.insert n.id .deferred) := fun u hu =>
        hu.defer fun m hm => id_ne_of_leads (hn m hm) (hnodup' m hm)
      refine (tracks_visit ih hdefer).mono (fun _ h => h) ?_ s t hst huntouched
      intro i hi
      rw [List.flatMap_cons]
      rcases List.mem_cons.mp hi with rfl | hi
      · exact List.mem_append_left _ (Node.id_mem_ownIds n)
      · exact List.mem_append_right _ hi
    -- it shares nothing with the rest, so lowering it leaves the rest untouched
    next hnot =>
      have hdisjoint := disjoint_of_not_consumed hn hnodup' (Bool.eq_false_iff.mpr hnot)
      have hstmt := lowerStmt_lowers c n (hnodup n List.mem_cons_self)
      have hnode : Tracks (Untouched (n :: rest)) n.ownIds (lowerStmt c n) (stmt c n) :=
        Tracks.mono hstmt (fun u hu => (hu n List.mem_cons_self).2) fun _ hi => hi
      unfold stmts
      refine (hnode.bind (fun _ => ih.bind_any fun _ => .ret _) fun u v hu hv =>
        (hu.mono (List.subset_cons_self n rest)).outside hdisjoint hv).mono (fun _ h => h) ?_ s t hst huntouched
      simp

/-! ## Tables -/

theorem lowerFunction_tracks (table : FunctionTable) (options : Options) (later : List Node) (r : FunctionRecord)
    (hbefore : r.sequence.Pairwise Node.Leads) (hnodup : ∀ n ∈ r.sequence, n.ownIds.Nodup) :
    Tracks (Untouched r.sequence) (r.sequence.flatMap Node.ownIds) (lowerFunction table options later r)
      (function table options (kept later r.sequence) r) := by
  unfold lowerFunction function
  refine ((tracks_note _).bind (fun _ => (lowerSequence_tracks _ later r.sequence hbefore hnodup).bind_any
    fun _ => .ret _) ?_).mono (fun _ h => h) (by simp)
  exact fun u v hu huv => hu.outside (fun _ _ => List.disjoint_nil_left _) huv

theorem lowerFunctions_tracks (table : FunctionTable) (options : Options) : ∀ records : List FunctionRecord,
    (∀ r ∈ records, r.sequence.Pairwise Node.Leads) → (∀ r ∈ records, ∀ n ∈ r.sequence, n.ownIds.Nodup) →
    (records.Pairwise fun r q => ∀ e ∈ r.sequence, ∀ m ∈ q.sequence, e.ownIds.Disjoint m.ownIds) →
    Tracks (Untouched (records.flatMap (·.sequence))) ((records.flatMap (·.sequence)).flatMap Node.ownIds)
      (lowerFunctions table options records) (functions kept table options records)
  | [], _, _, _ => by
    unfold lowerFunctions functions
    exact .ret _
  | r :: rest, hbefore, hnodup, hacross => by
    obtain ⟨hr, hrest⟩ := List.pairwise_cons.mp hacross
    have hfirst : Tracks (Untouched ((r :: rest).flatMap (·.sequence))) (r.sequence.flatMap Node.ownIds)
        (lowerFunction table options (rest.flatMap (·.sequence)) r)
        (function table options (kept (rest.flatMap (·.sequence)) r.sequence) r) := by
      refine (lowerFunction_tracks table options _ r (hbefore r List.mem_cons_self)
        (hnodup r List.mem_cons_self)).mono (fun u hu => hu.mono ?_) fun _ hi => hi
      rw [List.flatMap_cons]
      exact List.subset_append_left _ _
    have ih := lowerFunctions_tracks table options rest (fun q hq => hbefore q (List.mem_cons_of_mem r hq))
      (fun q hq => hnodup q (List.mem_cons_of_mem r hq)) hrest
    have hapart : ∀ m ∈ rest.flatMap (·.sequence), (r.sequence.flatMap Node.ownIds).Disjoint m.ownIds := by
      intro m hm i hir him
      obtain ⟨q, hq, hmq⟩ := List.mem_flatMap.mp hm
      obtain ⟨e, he, hie⟩ := List.mem_flatMap.mp hir
      exact hr q hq e he m hmq hie him
    unfold lowerFunctions functions
    refine (hfirst.bind (fun _ => ih.bind_any fun _ => .ret _) fun u v hu hv => ?_).mono (fun _ h => h) ?_
    · refine (hu.mono ?_).outside hapart hv
      rw [List.flatMap_cons]
      exact List.subset_append_right _ _
    · simp only [List.append_nil, List.flatMap_cons, List.flatMap_append]
      exact fun i hi => hi

end Lowering

namespace FunctionTable.Distinct

variable {table : FunctionTable}

theorem nodup_of_mem (h : table.Distinct) {r : FunctionRecord} (hr : r ∈ table.records) :
    ∀ n ∈ r.sequence, n.ownIds.Nodup := by
  intro n hn
  obtain ⟨f, hf⟩ := List.getElem?_of_mem hr
  exact h.nodup ⟨r, hf, hn⟩

theorem before_of_mem (h : table.Distinct) {r : FunctionRecord} (hr : r ∈ table.records) :
    r.sequence.Pairwise Node.Leads := by
  obtain ⟨f, hf⟩ := List.getElem?_of_mem hr
  exact h.before hf

theorem pairwise (h : table.Distinct) :
    table.records.Pairwise fun r q => ∀ e ∈ r.sequence, ∀ m ∈ q.sequence, e.ownIds.Disjoint m.ownIds := by
  rw [List.pairwise_iff_getElem]
  intro f g hf hg hlt e he m hm
  exact h.across ⟨_, List.getElem?_eq_getElem hf, he⟩ ⟨_, List.getElem?_eq_getElem hg, hm⟩ (Nat.ne_of_lt hlt)

/-- Lowering the functions of the table is plain lowering of the entries that are not put off. -/
theorem tracks (h : table.Distinct) (options : Options) :
    Lowering.Tracks (Lowering.Untouched (table.records.flatMap (·.sequence)))
      ((table.records.flatMap (·.sequence)).flatMap Node.ownIds)
      (Lowering.lowerFunctions table options table.records)
        (Lowering.Plain.functions Lowering.kept table options table.records) :=
  Lowering.lowerFunctions_tracks table options table.records (fun _ hr => h.before_of_mem hr)
    (fun _ hr => h.nodup_of_mem hr) h.pairwise

theorem exists_kept (h : table.Distinct) {options : Options} {functions : List FunctionCode} {s : Lowering.State}
    (hrun : (Lowering.lowerFunctions table options table.records).run { frames := .ofTable table } = .ok functions s) :
    ∃ t, (Lowering.Plain.functions Lowering.kept table options table.records).run { frames := .ofTable table } =
      .ok functions t := by
  have hagree := h.tracks options { frames := .ofTable table } { frames := .ofTable table } ⟨rfl, rfl, rfl⟩
    fun n _ => ⟨by simp, fun i _ => by simp⟩
  rw [hrun] at hagree
  cases hkept : (Lowering.Plain.functions Lowering.kept table options table.records).run
    { frames := .ofTable table } with
  | error e t =>
    rw [hkept] at hagree
    exact hagree.elim
  | ok functions' t =>
    rw [hkept] at hagree
    obtain ⟨rfl, -⟩ := hagree
    exact ⟨t, rfl⟩

end FunctionTable.Distinct
end Bies
