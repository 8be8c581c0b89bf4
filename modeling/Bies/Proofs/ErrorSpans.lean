import Bies.Proofs.Failures
import Bies.Proofs.Layout
import Bies.Proofs.TreeSpans

/-!
# Where errors stand

The place of a parse error is that of a token, of two tokens or of the end of the source. Errors of later stages
and skipped statements have the places of nodes of the tree. Both follow from what is handed on when a source is
compiled beside itself: spans that fit.
-/

namespace Bies

open List

variable {source : List Char}

/-! ## Parse errors -/

theorem Span.Fits.join {s t : Span} (hs : s.Fits source) (ht : t.Fits source) : (s.join t).Fits source := by
  unfold Span.join
  split
  · exact hs
  · split
    · exact ht
    · have hmax : s.stop ≤ max s.stop t.stop ∧ (max s.stop t.stop = s.stop ∨ max s.stop t.stop = t.stop) := by
        by_cases h : s.stop ≤ t.stop
        · rw [show max s.stop t.stop = t.stop from if_pos h]
          exact ⟨h, .inr rfl⟩
        · rw [show max s.stop t.stop = s.stop from if_neg h]
          exact ⟨UInt32.le_refl _, .inl rfl⟩
      refine ⟨UInt32.le_trans Std.min_le_left (UInt32.le_trans hs.forward hmax.1), ?_, ?_⟩
      · rcases Std.min_eq_or (a := s.start) (b := t.start) with h | h <;> rw [h]
        · exact hs.start
        · exact ht.start
      · rcases hmax.2 with h | h <;> rw [h]
        · exact hs.stop
        · exact ht.stop

namespace Parser

def fitting (source : List Char) {stop : Finish} (hstop : stop.span.Fits source) : Simulation stop stop where
  tokens t t' := t = t' ∧ t.span.Fits source
  trees _ _ := True
  spans s _ := s.Fits source
  numbers _ _ _ _ := False
  kind_eq h := congrArg _ h.1
  text_eq h := congrArg _ h.1
  span h := h.2
  ends := hstop
  join hs ht := hs.join ht
  leaf _ _ := trivial
  node _ _ := trivial
  begins := @Simulation.not_begins
  first h := h.elim
  shorter := @Simulation.not_shorter
  expression h := h.elim

theorem beside_fitting {stop : Finish} (hstop : stop.span.Fits source) {us : List Token}
    (h : ∀ t ∈ us, t.span.Fits source) : (fitting source hstop).Beside false us us := by
  induction us with
  | nil => exact .nil
  | cons t us ih =>
    rw [forall_mem_cons] at h
    exact .cons ⟨rfl, h.1⟩ (fun _ _ _ _ _ => trivial) (ih h.2)

end Parser

theorem ParseError.fits_of_parse {e : ParseError} (hsize : byteLength source < 2 ^ 32)
    (h : Tree.parse source = .error e) : e.span.Fits source := by
  have hstop : (Parser.Finish.ofSource source).span.Fits source :=
    ⟨UInt32.le_refl _, ⟨source, [], by simp, Span.start_ofOffsets hsize⟩, source,
      [], by simp, Span.stop_ofOffsets hsize⟩
  obtain ⟨t, t', ht, -⟩ | ⟨e', _, he, -, -, hfits⟩ := Tree.parse_pairs _ (Parser.beside_fitting hstop
    fun t ht => (Token.place_of_mem_scan hsize (mem_of_mem_filter ht)).2)
  · rw [h] at ht
    cases ht
  · rw [h] at he
    cases he
    exact hfits

/-! ## Errors and skipped statements -/

theorem Tree.isPlain_of_parse {tree : Tree} (hsize : byteLength source < 2 ^ 32) (h : Tree.parse source = .ok tree) :
    ∀ t ∈ tree.subtrees, t.kind = .identifier → IsPlain (t.text source) := by
  obtain ⟨ts, rfl, hderives⟩ := Tree.derives_of_parse h
  intro t ht hkind
  obtain ⟨u, hu, hreads, rfl⟩ :=
    (Tree.namesFrom_node (by decide)).mpr (hderives.namesFrom (Subset.refl _)) t ht hkind
  have hu := mem_of_mem_filter hu
  have htext : (Derivation.nameLeaf u).text source = u.text := Token.text_of_mem_scan hsize hu
  rw [Terminal.reads, Bool.and_eq_true, beq_iff_eq] at hreads
  rw [htext]
  exact Token.isPlain_of_mem_scanFrom hu hreads.1

theorem Tree.matches_self {spans : Span → Span → Prop} (t : Tree) : (∀ u ∈ t.subtrees, spans u.span u.span ∧
    (u.kind = .identifier → IsPlain (u.text source))) → Tree.Matches spans source source t t := by
  refine Program.treeInduction (P := fun t => (∀ u ∈ t.subtrees, spans u.span u.span ∧
    (u.kind = .identifier → IsPlain (u.text source))) → Tree.Matches spans source source t t) ?_ t
  intro kind span ts ih h
  rw [Tree.subtrees, forall_mem_cons] at h
  refine .paired h.1.1 (.node (fun _ => rfl) h.1.2 (forall₂_same.mpr fun t ht => ih t ht fun u hu => ?_))
  exact h.2 u (Tree.mem_subtreesAll.mpr ⟨t, ht, hu⟩)

theorem exists_span_of_compileTree {options : Options} {tree : Tree} {e : CompileError}
    (he : (compileTree options source tree).result = .error e) : ∃ s, e.span? = some s := by
  have hwithin : Stmt.AllWithin {} (Program.ofTree source tree) := Program.ofTree_within tree
  rcases compileTree_eq_error he with he | ⟨table, ht, he⟩
  · obtain ⟨fault, span, rfl, -⟩ := FunctionTable.reports_of_ofProgram hwithin he
    exact ⟨span, rfl⟩
  · have hreports := Assembly.reports_of_ofTable hwithin ht he
    cases e with
    | unknownOperator op span => exact ⟨span, rfl⟩
    | unboundIdentifier name span => exact ⟨span, rfl⟩
    | parse | malformed | internal => exact hreports.elim

theorem compileTree_spans (options : Options) {tree : Tree} (h : ∀ t ∈ tree.subtrees, t.span.Fits source ∧
    (t.kind = .identifier → IsPlain (t.text source))) : match (compileTree options source tree).result with
    | .ok assembly => ∀ n ∈ assembly.skipped, n.span.Fits source
    | .error e => ∃ s, e.span? = some s ∧ s.Fits source := by
  have hmatches : Tree.Matches (fun s _ => s.Fits source) source source tree tree := tree.matches_self h
  obtain ⟨ha, -, -, hskipped⟩ | ⟨he, -, -, hplaces⟩ := compileTree_matches options hmatches
  · rw [ha]
    exact ((forall₂_and_left _ _).mp (hskipped.imp fun _ _ hn => And.intro hn trivial)).1
  · rw [he]
    obtain ⟨s, hs⟩ := exists_span_of_compileTree he
    obtain ⟨hnone, -⟩ | ⟨s', _, hsome, -, hfits⟩ := rel_cases hplaces
    · rw [hs] at hnone
      cases hnone
    · exact ⟨s', hsome, hfits⟩

theorem compile_fits (options : Options) (hsize : byteLength source < 2 ^ 32) :
    match (compile options source).result with
    | .ok assembly => ∀ n ∈ assembly.skipped, n.span.Fits source
    | .error e => ∃ s, e.span? = some s ∧ s.Fits source := by
  cases hparse : Tree.parse source with
  | error e =>
    rw [compile_of_not_parse options hparse]
    exact ⟨e.span, rfl, e.fits_of_parse hsize hparse⟩
  | ok tree =>
    rw [compile_of_parse options hparse]
    exact compileTree_spans options fun t ht =>
      ⟨(Tree.nested_of_parse hsize hparse t ht).1, Tree.isPlain_of_parse hsize hparse t ht⟩

/-- Spans fit the source. In a tree they are nested, in order and not empty, but for the tree of an empty source. -/
theorem compile_spans (options : Options) (hsize : byteLength source < 2 ^ 32) :
    (∀ tree, Tree.parse source = .ok tree → ∀ t ∈ tree.subtrees,
      t.span.Fits source ∧ (t.span.start < t.span.stop ∨ source = [] ∧ t.kind = .program) ∧
        (∀ u ∈ t.children, u.span.Within t.span) ∧ t.children.Pairwise fun u v => u.span.Before v.span) ∧
    (∀ e, (compile options source).result = .error e → ∃ s inside, e.span? = some s ∧ s.Fits source ∧
      sliceBytes? s.start.toNat s.stop.toNat source = some inside) ∧
    ∀ assembly, (compile options source).result = .ok assembly →
      ∀ n ∈ assembly.skipped, ∃ inside, n.span.Fits source ∧
      sliceBytes? n.span.start.toNat n.span.stop.toNat source = some inside := by
  have hfits := compile_fits options hsize
  refine ⟨fun tree => Tree.nested_of_parse hsize, fun e he => ?_, fun assembly hassembly n hn => ?_⟩
  · rw [he] at hfits
    obtain ⟨s, hs, hfits⟩ := hfits
    obtain ⟨inside, hinside⟩ := hfits.exists_slice
    exact ⟨s, inside, hs, hfits, hinside⟩
  · rw [hassembly] at hfits
    obtain ⟨inside, hinside⟩ := (hfits n hn).exists_slice
    exact ⟨inside, hfits n hn, hinside⟩

/-- A remainder cannot be lowered; a string that is a statement is skipped. -/
theorem compile_spans_of_wideText :
    (∃ e inside, (compile {} "print(\"é\" % 2)".toList).result = .error e ∧ e.span? = some ⟨6, 14⟩ ∧
      Span.Fits ⟨6, 14⟩ "print(\"é\" % 2)".toList ∧ sliceBytes? 6 14 "print(\"é\" % 2)".toList = some inside) ∧
    (∃ tree, Tree.parse "7 \"é\"".toList = .ok tree ∧ ∀ t ∈ tree.subtrees,
      t.span.Fits "7 \"é\"".toList ∧ (t.span.start < t.span.stop ∨ "7 \"é\"".toList = [] ∧ t.kind = .program) ∧
        (∀ u ∈ t.children, u.span.Within t.span) ∧ t.children.Pairwise fun u v => u.span.Before v.span) ∧
    ∃ assembly n inside, (compile {} "7 \"é\"".toList).result = .ok assembly ∧ n ∈ assembly.skipped ∧
      n.span = ⟨2, 6⟩ ∧
      n.span.Fits "7 \"é\"".toList ∧ sliceBytes? 2 6 "7 \"é\"".toList = some inside := by
  have hsize : byteLength "7 \"é\"".toList < 2 ^ 32 := by decide +kernel
  have hwide := compile_spans {} hsize
  refine ⟨?_, ?_, ?_⟩
  · have hspan : (match (compile {} "print(\"é\" % 2)".toList).result with
        | .error e => e.span?
        | .ok _ => none) = some ⟨6, 14⟩ := by decide +kernel
    split at hspan
    next e he =>
      obtain ⟨s, inside, hs, hfits, hinside⟩ := (compile_spans {} (by decide +kernel)).2.1 e he
      obtain rfl : (⟨6, 14⟩ : Span) = s := Option.some.inj (hspan.symm.trans hs)
      exact ⟨e, inside, he, hspan, hfits, hinside⟩
    next => cases hspan
  · obtain ⟨tree, htree, -⟩ := Tree.exists_of_parse "7 \"é\"".toList (p := fun _ => true) (by decide +kernel)
    exact ⟨tree, htree, hwide.1 tree htree⟩
  · have hskipped : (match (compile {} "7 \"é\"".toList).result with
        | .error _ => none
        | .ok assembly => assembly.skipped.getLast?.map Skipped.span) = some ⟨2, 6⟩ := by decide +kernel
    split at hskipped
    next => cases hskipped
    next assembly hassembly =>
      obtain ⟨n, hn, hspan⟩ := Option.map_eq_some_iff.mp hskipped
      have hn := List.mem_of_getLast? hn
      obtain ⟨inside, hfits, hinside⟩ := hwide.2.2 assembly hassembly n hn
      rw [hspan] at hinside
      exact ⟨assembly, n, inside, hassembly, hn, hspan, hfits, hinside⟩

end Bies
