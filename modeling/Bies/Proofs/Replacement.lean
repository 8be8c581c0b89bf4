import Bies.Proofs.Failures
import Bies.Proofs.FoldedNodes
import Bies.Proofs.Records
import Bies.Proofs.SingleEmission

/-!
# Lambdas that replace each other

The last lambda that is declared with a name gives the record its parameters, and its body comes first there. If that
lambda does not stand in a body of the same function, then nothing comes behind: the record holds the statements of the
lambda. A lambda that is declared anew in its own body does not replace it, since the statements around the new one are
still to come.
-/

namespace Bies

open Loading Lowering.Plain

/-! ## Declarations inside statements -/

section
variable {all : List String} {b : Bounds} {d : Node}

theorem Node.isDecl_of_isConditional {n : Node} (h : n.isConditional = true) : n.isDecl = false := by
  cases n <;> first | rfl | cases h

theorem mem_of_mem_block {tag : Tag} {nodes : List Node}
    (h : d ∈ Node.block tag nodes :: (Node.block tag nodes).inside false) (hdecl : d.isDecl = true) :
    d ∈ Node.insideAll false nodes := by
  rcases List.mem_cons.mp h with rfl | h
  · cases hdecl
  · exact h

mutual

theorem Expr.isDecl_of_becomes :
    ∀ {e : Expr} {n : Node}, e.Becomes all n → d ∈ n :: n.inside false → d.isDecl = false
  | .int .., _, h, hd | .float .., _, h, hd | .str .., _, h, hd | .ident .., _, h, hd => by
    obtain ⟨id, rfl⟩ := h
    rw [List.mem_singleton.mp hd]
    rfl
  | .arithmetic span left op right, _, h, hd => by
    obtain ⟨id, l, r, hl, hr, rfl | ⟨k, rfl⟩⟩ := h
    · rcases List.mem_cons.mp hd with rfl | hd
      · rfl
      · rcases List.mem_append.mp hd with hd | hd
        · exact Expr.isDecl_of_becomes hl hd
        · exact Expr.isDecl_of_becomes hr hd
    · cases k <;> (rw [List.mem_singleton.mp hd]; rfl)
  | .comparison span left op right, _, h, hd => by
    obtain ⟨id, l, r, hl, hr, rfl⟩ := h
    rcases List.mem_cons.mp hd with rfl | hd
    · rfl
    · rcases List.mem_append.mp hd with hd | hd
      · exact Expr.isDecl_of_becomes hl hd
      · exact Expr.isDecl_of_becomes hr hd
  | .call span name args, _, h, hd | .list span args, _, h, hd => by
    obtain ⟨id, ns, hns, rfl⟩ := h
    rcases List.mem_cons.mp hd with rfl | hd
    · rfl
    · exact Expr.isDecl_of_allBecome hns hd
  | .access span name index, _, h, hd => by
    obtain ⟨id, i, hi, rfl⟩ := h
    rcases List.mem_cons.mp hd with rfl | hd
    · rfl
    · exact Expr.isDecl_of_becomes hi hd
  | .lambda span params body, _, h, hd => by
    obtain ⟨id, b, f, _, _, rfl⟩ := h
    rw [List.mem_singleton.mp hd]
    rfl
  | .malformed .., _, h, _ => h.elim

theorem Expr.isDecl_of_allBecome : ∀ {es : List Expr} {ns : List Node}, Expr.AllBecome all es ns →
    d ∈ Node.insideAll false ns → d.isDecl = false
  | [], _, h, hd => by
    obtain rfl : _ = [] := h
    cases hd
  | e :: rest, _, h, hd => by
    obtain ⟨n, ns, hn, hns, rfl⟩ := h
    rcases List.mem_append.mp hd with hd | hd
    · exact Expr.isDecl_of_becomes hn hd
    · exact Expr.isDecl_of_allBecome hns hd

end

mutual

theorem Stmt.mem_nested_of_becomes :
    ∀ {stmt : Stmt} {n : Node}, stmt.Becomes all n → n.Within b → d ∈ n.inside false → d.isDecl = true →
    d ∈ n.nested
  | .decl .., _, h, _, hd, hdecl | .ret .., _, h, _, hd, hdecl => by
    obtain ⟨id, v, hv, rfl⟩ := h
    exact absurd hdecl (Bool.eq_false_iff.mp (Expr.isDecl_of_becomes hv hd))
  | .lambdaDecl .., _, h, _, hd, _ | .funDecl .., _, h, _, hd, _ => by
    obtain ⟨id, b, f, _, _, rfl⟩ := h
    cases hd
  | .letIn .., _, h, hw, hd, hdecl => by
    obtain ⟨id, k, ds, ss, hds, hss, rfl⟩ := h
    rcases List.mem_append.mp hd with hd | hd
    · exact List.mem_append_left _ (Stmt.mem_nestedAll_of_allBecome hds hw.1 hd hdecl)
    · exact List.mem_append_right _ (Stmt.mem_nestedAll_of_allBecome hss hw.2 (mem_of_mem_block hd hdecl) hdecl)
  | .ifThen .., _, h, hw, hd, hdecl => by
    obtain ⟨id, k, t, ss, ht, hss, rfl⟩ := h
    rcases List.mem_append.mp hd with hd | hd
    · exact absurd hdecl (Bool.eq_false_iff.mp (Expr.isDecl_of_becomes ht hd))
    · exact Stmt.mem_nestedAll_of_allBecome hss hw.2 (mem_of_mem_block hd hdecl) hdecl
  | .ifElse .., _, h, hw, hd, hdecl => by
    obtain ⟨id, k, j, t, ss, os, ht, hss, hos, rfl⟩ := h
    rcases List.mem_append.mp hd with hd | hd
    · rcases List.mem_append.mp hd with hd | hd
      · exact absurd hdecl (Bool.eq_false_iff.mp (Expr.isDecl_of_becomes ht hd))
      · exact List.mem_append_left _ (Stmt.mem_nestedAll_of_allBecome hss hw.2.1 (mem_of_mem_block hd hdecl) hdecl)
    · exact List.mem_append_right _ (Stmt.mem_nestedAll_of_allBecome hos hw.2.2 (mem_of_mem_block hd hdecl) hdecl)
  | .ifElseIf .., _, h, hw, hd, hdecl => by
    obtain ⟨id, k, t, ss, l, ht, hss, hl, rfl⟩ := h
    rcases List.mem_append.mp hd with hd | hd
    · rcases List.mem_append.mp hd with hd | hd
      · exact absurd hdecl (Bool.eq_false_iff.mp (Expr.isDecl_of_becomes ht hd))
      · exact List.mem_append_left _ (Stmt.mem_nestedAll_of_allBecome hss hw.2.1 (mem_of_mem_block hd hdecl) hdecl)
    · rcases List.mem_cons.mp hd with rfl | hd
      · exact absurd hdecl (Bool.eq_false_iff.mp (Node.isDecl_of_isConditional hw.2.2.1))
      · exact List.mem_append_right _ (Stmt.mem_nested_of_becomes hl hw.2.2.2 hd hdecl)
  | .block .., _, h, hw, hd, hdecl => by
    obtain ⟨id, ss, hss, rfl⟩ := h
    exact Stmt.mem_nestedAll_of_allBecome hss hw hd hdecl
  | .print .., _, h, _, hd, hdecl => by
    obtain ⟨id, ns, hns, rfl⟩ := h
    exact absurd hdecl (Bool.eq_false_iff.mp (Expr.isDecl_of_allBecome hns hd))
  | .expr .., _, h, _, hd, hdecl =>
    absurd hdecl (Bool.eq_false_iff.mp (Expr.isDecl_of_becomes h (List.mem_cons_of_mem _ hd)))
  | .malformed .., _, h, _, _, _ => h.elim

theorem Stmt.mem_nestedAll_of_allBecome :
    ∀ {statements : List Stmt} {ns : List Node}, Stmt.AllBecome all statements ns → Node.AllWithin b ns →
    d ∈ Node.insideAll false ns → d.isDecl = true → d ∈ Node.nestedAll ns
  | [], _, h, _, hd, _ => by
    obtain rfl : _ = [] := h
    cases hd
  | stmt :: rest, _, h, hw, hd, hdecl => by
    obtain ⟨n, ns, hn, hns, rfl⟩ := h
    rcases List.mem_append.mp hd with hd | hd
    · refine List.mem_append_left _ ?_
      rcases List.mem_cons.mp hd with rfl | hd
      · rw [if_pos hdecl]
        exact List.mem_append_right _ (List.mem_singleton.mpr rfl)
      · exact List.mem_append_left _ (Stmt.mem_nested_of_becomes hn hw.1 hd hdecl)
    · exact List.mem_append_right _ (Stmt.mem_nestedAll_of_allBecome hns hw.2 hd hdecl)

end

theorem Stmt.exists_becomes : ∀ {statements : List Stmt} {ns : List Node}, Stmt.AllBecome all statements ns →
    ∀ n ∈ ns, ∃ stmt : Stmt, stmt.Becomes all n
  | [], _, h, n, hn => by
    obtain rfl : _ = [] := h
    cases hn
  | stmt :: rest, _, h, n, hn => by
    obtain ⟨m, ns, hm, hns, rfl⟩ := h
    rcases List.mem_cons.mp hn with rfl | hn
    · exact ⟨stmt, hm⟩
    · exact Stmt.exists_becomes hns n hn

theorem Stmt.length_eq_of_allBecome : ∀ {statements : List Stmt} {ns : List Node}, Stmt.AllBecome all statements ns →
    ns.length = statements.length
  | [], _, h => congrArg List.length h
  | stmt :: rest, _, h => by
    obtain ⟨m, ns, _, hns, rfl⟩ := h
    rw [List.length_cons, List.length_cons, Stmt.length_eq_of_allBecome hns]

end

theorem roots_entries_of_allBecome {all : List String} {b : Bounds} {statements : List Stmt} {ns : List Node}
    (h : Stmt.AllBecome all statements ns) (hw : ∀ n ∈ Node.entries ns, n.Within b)
    (hnodup : ∀ n ∈ Node.entries ns, n.ids.Nodup) (hbefore : (Node.entries ns).Pairwise Node.Before) :
    roots (Node.entries ns) = ns := by
  have hentry : ∀ n ∈ ns, n ∈ Node.entries ns := fun n hn => List.mem_flatMap.mpr ⟨n, hn, by simp⟩
  apply roots_entries
  refine (List.pairwise_flatMap.mp hbefore).2.imp_of_mem fun {n m} hn hm hnm hmem => ?_
  rcases hnm n (by simp) m (by simp) with hdisjoint | ⟨hdecl, hin⟩
  · exact hdisjoint (Node.id_mem_ids n) hmem
  · -- the statement would be an entry once more, nested in the later one
    obtain ⟨stmt, hstmt⟩ := Stmt.exists_becomes h m hm
    have hnested := Stmt.mem_nested_of_becomes hstmt (hw m (hentry m hm)) hin hdecl
    rcases hnm n (by simp) n (List.mem_append_left _ hnested) with hdisjoint | ⟨_, hself⟩
    · exact hdisjoint (Node.id_mem_ids n) (Node.id_mem_ids n)
    · have hids := List.nodup_cons.mp (hnodup n (hentry n hn))
      exact hids.1 (List.mem_map_of_mem ((Node.inside_sublist n).subset hself))

/-! ## The last lambda of a name -/

namespace FunctionTable

/-- Whatever source is parsed and loaded, the last declaration of a name, if it is that of a lambda, gives the record its
parameters, and the entries of its statements come first in the sequence. If it does not stand in a body of the function
itself, then nothing comes behind, and the statements of the lambda are the roots. -/
theorem begins_of_parse {source : List Char} {tree : Tree} {table : FunctionTable} (hsize : byteLength source < 2 ^ 32)
    (hparse : Tree.parse source = .ok tree) (hload : (ofProgram (.ofTree source tree)).result = .ok table)
    {x : String} {d : Declaration} (hlast : ((Program.ofTree source tree).declarations x).getLast? = some d)
    (hlambda : d.byLambda = true) :
    ∃ r ns rest, table.get? x = some r ∧ r.params = d.params ∧ Stmt.AllBecome table.names d.body.statements ns ∧
      r.sequence = Node.entries ns ++ rest ∧ (d.within = false → rest = [] ∧ roots r.sequence = ns) := by
  have hnames := Program.plainNames_of_parse hsize hparse
  have hx : '#' ∉ x.toList := by
    intro hx
    rw [Program.declarations, Stmt.declarationsAll_eq_nil hx _ hnames] at hlast
    cases hlast
  obtain ⟨_, entries, hchanges⟩ := changes_of_ofProgram hload hx
  unfold Changes at hchanges
  rw [hlast] at hchanges
  obtain ⟨r, hr, hparams, ns, rest, hns, hsequence, hrest⟩ := hchanges.2.2 hlambda
  refine ⟨r, ns, rest, hr, hparams, hns, hsequence, fun hout => ⟨hrest hout, ?_⟩⟩
  rw [hrest hout, List.append_nil] at hsequence
  rw [hsequence]
  have hmem : r ∈ table.records := List.mem_of_find?_eq_some hr
  have hseparated := separated_of_ofProgram hnames hload
  have hsound := sound_of_ofProgram (Program.ofTree_within tree) hload
  obtain ⟨f, hf⟩ := List.getElem?_of_mem hmem
  exact roots_entries_of_allBecome hns (fun n hn => hsound.entries ⟨r, hf, hsequence ▸ hn⟩)
    (hsequence ▸ hseparated.nodup_of_mem hmem) (hsequence ▸ hseparated.before_of_mem hmem)

/-- The first lambda is declared anew in its own body, and then replaced. -/
def replacedSource : List Char :=
  ("let f = (x) => { let f = () => 1 return x } " ++
    "let f = (a) => { if (a > 0) { let b = a print(b) } return a } print(f(3))").toList

theorem begins_of_replacedSource : ∃ tree table d, Tree.parse replacedSource = .ok tree ∧
    (ofProgram (.ofTree replacedSource tree)).result = .ok table ∧
    ((Program.ofTree replacedSource tree).declarations "f").getLast? = some d ∧ d.params = ["a"] ∧
      d.byLambda = true ∧
    d.within = false ∧ ∃ r ns, table.get? "f" = some r ∧ r.params = d.params ∧
      Stmt.AllBecome table.names d.body.statements ns ∧ r.sequence = Node.entries ns ∧ roots r.sequence = ns := by
  obtain ⟨tree, hparse, hp⟩ := Tree.exists_of_parse replacedSource (p := fun tree =>
    (ofProgram (.ofTree replacedSource tree)).result.toOption.isSome &&
      ((Program.ofTree replacedSource tree).declarations "f").getLast?.any fun d =>
        d.params = ["a"] && d.byLambda && !d.within) (by decide +kernel)
  rw [Bool.and_eq_true] at hp
  obtain ⟨htable, hd⟩ := hp
  obtain ⟨d, hlast, hd⟩ := (Option.any_eq_true _ _).mp hd
  simp only [Bool.and_eq_true, decide_eq_true_eq, Bool.not_eq_true'] at hd
  obtain ⟨⟨hparams, hlambda⟩, hout⟩ := hd
  cases hload : (ofProgram (.ofTree replacedSource tree)).result with
  | error e =>
    rw [hload] at htable
    cases htable
  | ok table =>
    obtain ⟨r, ns, rest, hr, hrparams, hns, hsequence, hrest⟩ :=
      begins_of_parse (by decide +kernel) hparse hload hlast hlambda
    obtain ⟨rfl, hroots⟩ := hrest hout
    rw [List.append_nil] at hsequence
    exact ⟨tree, table, d, hparse, hload, hlast, hparams, hlambda, hout, r, ns, hr, hrparams, hns, hsequence, hroots⟩

def selfNestedSource : List Char := "let f = () => { let f = () => 1 return 2 } print(f())".toList

/-- The record of `f` has the statements of the inner lambda and then those of the outer one that are left:
three roots. -/
theorem not_allBecome_of_selfNestedSource : ∃ tree table r, Tree.parse selfNestedSource = .ok tree ∧
    (ofProgram (.ofTree selfNestedSource tree)).result = .ok table ∧ table.get? "f" = some r ∧
    ((Program.ofTree selfNestedSource tree).declarations "f").map (fun d => (d.byLambda, d.within)) =
      [(true, false), (true, true)] ∧
    ∀ d ∈ (Program.ofTree selfNestedSource tree).declarations "f",
      ¬ Stmt.AllBecome table.names d.body.statements (roots r.sequence) := by
  obtain ⟨tree, hparse, hp⟩ := Tree.exists_of_parse selfNestedSource (p := fun tree =>
    decide (((Program.ofTree selfNestedSource tree).declarations "f").map (fun d => (d.byLambda, d.within)) =
      [(true, false), (true, true)]) &&
    ((Program.ofTree selfNestedSource tree).declarations "f").all (fun d => decide (d.body.statements.length ≠ 3)) &&
      (ofProgram (.ofTree selfNestedSource tree)).result.toOption.any fun table =>
        (table.get? "f").any fun r => decide ((roots r.sequence).length = 3)) (by decide +kernel)
  simp only [Bool.and_eq_true, decide_eq_true_eq, List.all_eq_true] at hp
  obtain ⟨⟨hdeclarations, hlengths⟩, htable⟩ := hp
  cases hload : (ofProgram (.ofTree selfNestedSource tree)).result with
  | error e =>
    rw [hload] at htable
    cases htable
  | ok table =>
    rw [hload] at htable
    obtain ⟨_, ⟨⟩, hrecord⟩ := (Option.any_eq_true _ _).mp htable
    obtain ⟨r, hr, hroots⟩ := (Option.any_eq_true _ _).mp hrecord
    refine ⟨tree, table, r, hparse, hload, hr, hdeclarations, fun d hd hbecome => hlengths d hd ?_⟩
    rw [← Stmt.length_eq_of_allBecome hbecome]
    exact of_decide_eq_true hroots

end FunctionTable
end Bies
