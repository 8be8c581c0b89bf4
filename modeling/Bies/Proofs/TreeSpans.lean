import Bies.Proofs.Derivations
import Bies.Proofs.TokenSpans

/-!
# Where trees stand

The tokens of a source stand in a row. Every tree that is parsed from them reaches from the start of one token to the
end of one. What is in a node lies within it, one part behind the other.
-/

namespace Bies

namespace Span

def Within (s t : Span) : Prop := t.start ≤ s.start ∧ s.stop ≤ t.stop

def Before (s t : Span) : Prop := s.stop ≤ t.start

/-- Both offsets cut the text between characters, and they are in order. -/
structure Fits (s : Span) (text : List Char) : Prop where
  forward : s.start ≤ s.stop
  start : IsBoundary text s.start.toNat
  stop : IsBoundary text s.stop.toNat

theorem Fits.exists_slice {s : Span} {text : List Char} (h : s.Fits text) :
    ∃ inside, sliceBytes? s.start.toNat s.stop.toNat text = some inside := by
  obtain ⟨before, after, htext, hstart⟩ := h.start
  obtain ⟨front, back, hcut, hstop⟩ := h.stop
  have hforward : byteLength before ≤ byteLength front := by
    rw [← hstart, ← hstop]
    exact UInt32.le_iff_toNat_le.mp h.forward
  -- the front goes at least as far as the part before the span
  obtain ⟨inside, rfl, hafter⟩ : ∃ inside, front = before ++ inside ∧ after = inside ++ back := by
    rcases List.append_eq_append_iff.mp (htext.symm.trans hcut) with ⟨inside, hfront, hback⟩ |
      ⟨more, hbefore, hback⟩
    · exact ⟨inside, hfront, hback⟩
    · cases more with
      | nil => exact ⟨[], by simpa using hbefore.symm, by simpa using hback.symm⟩
      | cons c more =>
        have := byteLength_pos (List.cons_ne_nil c more)
        rw [hbefore, byteLength_append] at hforward
        omega
  refine ⟨inside, ?_⟩
  rw [hstart, hstop, byteLength_append, htext, hafter, sliceBytes?_middle]

/-- The span is not empty and reaches from the start of one token to the end of one. -/
structure Over (us : List Token) (s : Span) : Prop where
  some : s.start < s.stop
  start : ∃ u ∈ us, u.span.start = s.start
  stop : ∃ u ∈ us, u.span.stop = s.stop

theorem Over.mono {us vs : List Token} {s : Span} (h : s.Over us) (hus : us ⊆ vs) : s.Over vs := by
  obtain ⟨u, hu, hstart⟩ := h.start
  obtain ⟨v, hv, hstop⟩ := h.stop
  exact ⟨h.some, ⟨u, hus hu, hstart⟩, v, hus hv, hstop⟩

section
variable {s t u : Span}

theorem join_of_before (hs : s.start < s.stop) (ht : t.start < t.stop) (h : s.Before t) :
    s.join t = ⟨s.start, t.stop⟩ := by
  unfold Before at h
  have hstart : s.start ≤ t.start := by grind
  have hstop : s.stop ≤ t.stop := by grind
  have hs : (s.start == s.stop) = false := by grind
  have ht : (t.start == t.stop) = false := by grind
  simp only [join, isEmpty, hs, ht, Bool.false_eq_true, if_false, Span.mk.injEq]
  exact ⟨if_pos hstart, if_pos hstop⟩

theorem zero_join (hs : s.start < s.stop) : Span.zero.join s = s := by
  have hs : (s.start == s.stop) = false := by grind
  rw [join, isEmpty, hs]
  rfl

end

theorem foldl_join : ∀ {ss : List Span} {s : Span}, (∀ t ∈ s :: ss, t.start < t.stop) →
    (s :: ss).Pairwise Before →
    ss.foldl join s = ⟨s.start, ((s :: ss).getLast (List.cons_ne_nil s ss)).stop⟩ ∧
      ∀ t ∈ s :: ss, t.Within (ss.foldl join s)
  | [], s, _, _ => by
    refine ⟨rfl, fun t ht => ?_⟩
    rw [List.mem_singleton.mp ht]
    exact ⟨UInt32.le_refl _, UInt32.le_refl _⟩
  | t :: ss, s, hsome, hordered => by
    rw [List.forall_mem_cons, List.forall_mem_cons] at hsome
    rw [List.pairwise_cons, List.forall_mem_cons, List.pairwise_cons] at hordered
    obtain ⟨hs, ht, hss⟩ := hsome
    obtain ⟨⟨hst, -⟩, htss, hordered⟩ := hordered
    have hjoin := join_of_before hs ht hst
    unfold Before at hst
    have hfirst : s.start < t.stop := by grind
    obtain ⟨hspan, hwithin⟩ := foldl_join (s := s.join t)
      (List.forall_mem_cons.mpr ⟨by rw [hjoin]; exact hfirst, hss⟩)
      (List.pairwise_cons.mpr ⟨fun u hu => by rw [hjoin]; exact htss u hu, hordered⟩)
    rw [List.forall_mem_cons] at hwithin
    rw [List.foldl_cons]
    -- the join of the first two stands for both
    have hall : s.Within (ss.foldl join (s.join t)) ∧ t.Within (ss.foldl join (s.join t)) := by
      have hboth := hwithin.1
      rw [hjoin] at hboth ⊢
      unfold Within at hboth ⊢
      grind
    refine ⟨?_, List.forall_mem_cons.mpr ⟨hall.1, List.forall_mem_cons.mpr ⟨hall.2, hwithin.2⟩⟩⟩
    rw [hspan, hjoin]
    cases ss <;> rfl

end Span

structure Token.Row (us : List Token) : Prop where
  some : ∀ u ∈ us, u.span.start < u.span.stop
  ordered : us.Pairwise fun u v => u.span.Before v.span

namespace Token.Row

variable {us vs : List Token}

theorem sublist (h : Row vs) (hus : us.Sublist vs) : Row us :=
  ⟨fun u hu => h.some u (hus.subset hu), h.ordered.sublist hus⟩

theorem left (h : Row (us ++ vs)) : Row us := h.sublist (List.sublist_append_left us vs)

theorem right (h : Row (us ++ vs)) : Row vs := h.sublist (List.sublist_append_right us vs)

theorem before (h : Row (us ++ vs)) {s t : Span} (hs : s.Over us) (ht : t.Over vs) : s.Before t := by
  obtain ⟨u, hu, hstop⟩ := hs.stop
  obtain ⟨v, hv, hstart⟩ := ht.start
  have huv := (List.pairwise_append.mp h.ordered).2.2 u hu v hv
  rwa [Span.Before, ← hstop, ← hstart]

theorem placed (h : Row us) {u : Token} (hu : u ∈ us) : u.span.Over us :=
  ⟨h.some u hu, ⟨u, hu, rfl⟩, u, hu, rfl⟩

end Token.Row

/-! ## Nested trees -/

/-- Every node of the tree stands over tokens of the list and has its children within it, one behind the other. -/
def Tree.Nested (us : List Token) (t : Tree) : Prop :=
  ∀ x ∈ t.subtrees, x.span.Over us ∧ (∀ y ∈ x.children, y.span.Within x.span) ∧
    x.children.Pairwise fun y z => y.span.Before z.span

theorem Tree.Nested.mono {us vs : List Token} {t : Tree} (h : t.Nested us) (hus : us ⊆ vs) : t.Nested vs := by
  intro x hx
  obtain ⟨hplaced, hinside⟩ := h x hx
  exact ⟨hplaced.mono hus, hinside⟩

structure Spread (us : List Token) (ss : List Span) (ts : List Tree) : Prop where
  placed : ∀ s ∈ ss, s.Over us
  ordered : ss.Pairwise Span.Before
  nested : ∀ t ∈ ts, t.Nested us

theorem Spread.mono {us vs : List Token} {ss : List Span} {ts : List Tree} (h : Spread us ss ts) (hus : us ⊆ vs) :
    Spread vs ss ts :=
  ⟨fun s hs => (h.placed s hs).mono hus, h.ordered, fun t ht => (h.nested t ht).mono hus⟩

theorem Spread.node {us : List Token} {ss : List Span} {ts : List Tree} {s : Span} {kind : Tree.Kind}
    (h : Spread us ss ts) (hs : s.Over us) (hsub : (ts.map Tree.span).Sublist ss) (hwithin : ∀ t ∈ ss, t.Within s) :
    Spread us [s] [.node kind s ts] := by
  refine ⟨List.forall_mem_singleton.mpr hs, List.pairwise_singleton _ _,
    List.forall_mem_singleton.mpr fun x hx => ?_⟩
  rcases List.mem_cons.mp hx with rfl | hx
  · refine ⟨hs, fun y hy => hwithin _ (hsub.subset (List.mem_map_of_mem hy)), ?_⟩
    exact List.pairwise_map.mp (h.ordered.sublist hsub)
  · obtain ⟨t, ht, hx⟩ := Tree.mem_subtreesAll.mp hx
    exact h.nested t ht x hx

def Spreads (us : List Token) (ss : List Span) (ts : List Tree) : Prop := Token.Row us → Spread us ss ts

namespace Spreads

variable {us vs : List Token} {u : Token} {ss rs : List Span} {ts xs : List Tree} {kind : Tree.Kind}

theorem nil : Spreads us [] [] := fun _ => ⟨by simp, .nil, by simp⟩

theorem append (h : Spreads us ss ts) (h' : Spreads vs rs xs) : Spreads (us ++ vs) (ss ++ rs) (ts ++ xs) := by
  intro hrow
  have hus := h hrow.left
  have hvs := h' hrow.right
  have hus' := hus.mono (List.subset_append_left us vs)
  have hvs' := hvs.mono (List.subset_append_right us vs)
  refine ⟨List.forall_mem_append.mpr ⟨hus'.placed, hvs'.placed⟩, ?_,
    List.forall_mem_append.mpr ⟨hus'.nested, hvs'.nested⟩⟩
  exact List.pairwise_append.mpr ⟨hus.ordered, hvs.ordered, fun s hs t ht => hrow.before
    (hus.placed s hs) (hvs.placed t ht)⟩

theorem token (h : Spreads us ss ts) : Spreads (u :: us) (u.span :: ss) ts := by
  have hu : Spreads [u] [u.span] [] := fun hrow =>
    ⟨List.forall_mem_singleton.mpr (hrow.placed (by simp)), List.pairwise_singleton _ _, by simp⟩
  exact hu.append h

theorem skip (h : Spreads us ss ts) : Spreads (u :: us) ss ts := by
  have hu : Spreads [u] [] [] := nil
  exact hu.append h

theorem close (h : Spreads us ss ts) : Spreads (us ++ [u]) (ss ++ [u.span]) ts := by
  simpa using h.append (token (u := u) nil)

theorem skipLast (h : Spreads us ss ts) : Spreads (us ++ [u]) ss ts := by
  simpa using h.append (skip (u := u) nil)

theorem leaf : Spreads [u] [u.span] [.leaf kind u.span] := by
  intro hrow
  have hnone : Spread [u] [] [] := nil hrow
  exact hnone.node (hrow.placed (by simp)) (by simp) (by simp)

theorem join_eq {first last : Span} (ss : List Span) (h : Spreads us (first :: (ss ++ [last])) ts)
    (hrow : Token.Row us) : first.join last = ⟨first.start, last.stop⟩ := by
  have h := h hrow
  exact Span.join_of_before (h.placed first (by simp)).some (h.placed last (by simp)).some
    (List.rel_of_pairwise_cons h.ordered (by simp))

theorem enclose {first last : Span} (ss : List Span) (h : Spreads us (first :: (ss ++ [last])) ts)
    (hsub : (ts.map Tree.span).Sublist (first :: (ss ++ [last]))) :
    Spreads us [first.join last] [.node kind (first.join last) ts] := by
  intro hrow
  rw [join_eq ss h hrow]
  have h := h hrow
  have hfirst := h.placed first (by simp)
  have hlast := h.placed last (by simp)
  have hordered := h.ordered
  rw [List.pairwise_cons, List.pairwise_append] at hordered
  obtain ⟨hafter, -, -, hbefore⟩ := hordered
  have hsomeFirst := hfirst.some
  have hsomeLast := hlast.some
  have hboth := hafter last (by simp)
  unfold Span.Before at hafter hbefore hboth
  have hsome : first.start < last.stop := by grind
  refine h.node ⟨hsome, hfirst.start, hlast.stop⟩ hsub fun t ht => ?_
  simp only [List.mem_cons, List.mem_append, List.not_mem_nil, or_false] at ht
  unfold Span.Within
  rcases ht with rfl | ht | rfl
  · grind
  · have hstart := hafter t (by simp [ht])
    have hstop := hbefore t ht last (by simp)
    have := (h.placed t (by simp [ht])).some
    dsimp only
    grind
  · grind

theorem enclose_join {first middle last : Span} (ss : List Span)
    (h : Spreads us (first :: (ss ++ [middle] ++ [last])) ts)
    (hsub : (ts.map Tree.span).Sublist (first :: (ss ++ [middle] ++ [last]))) :
    Spreads us [(first.join middle).join last] [.node kind ((first.join middle).join last) ts] := by
  intro hrow
  have hplaced := (h hrow).placed
  have hordered := (h hrow).ordered
  have hfirst := (hplaced first (by simp)).some
  have hmiddle := (hplaced middle (by simp)).some
  have hlast := (hplaced last (by simp)).some
  rw [List.pairwise_cons, List.pairwise_append] at hordered
  have hfirstMiddle := hordered.1 middle (by simp)
  have hfirstLast := hordered.1 last (by simp)
  have hmiddleLast := hordered.2.2.2 middle (by simp) last (by simp)
  have hjoin : (first.join middle).join last = first.join last := by
    rw [Span.join_of_before hfirst hmiddle hfirstMiddle, Span.join_of_before hfirst hlast hfirstLast]
    refine Span.join_of_before ?_ hlast hmiddleLast
    unfold Span.Before at hfirstMiddle
    dsimp only
    grind
  rw [hjoin]
  exact enclose _ h hsub hrow

theorem covering_span {t : Tree} (h : Spreads us ((t :: ts).map Tree.span) (t :: ts)) (hrow : Token.Row us) :
    (Tree.covering kind (t :: ts)).span = ⟨t.span.start, ((t :: ts).getLast (List.cons_ne_nil t ts)).span.stop⟩ ∧
      ∀ s ∈ (t :: ts).map Tree.span, s.Within (Tree.covering kind (t :: ts)).span := by
  have h := h hrow
  have hsome : ∀ s ∈ (t :: ts).map Tree.span, s.start < s.stop := fun s hs => (h.placed s hs).some
  have hspan : (Tree.covering kind (t :: ts)).span = (ts.map Tree.span).foldl Span.join t.span := by
    rw [Tree.covering, Tree.span, List.foldl_cons, Span.zero_join (hsome _ (by simp)), List.foldl_map]
  obtain ⟨heq, hwithin⟩ := Span.foldl_join hsome h.ordered
  refine ⟨?_, by rwa [hspan]⟩
  have hlast := List.getLast_map (f := Tree.span) (l := t :: ts) (by simp)
  rw [hspan, heq, ← hlast]
  rfl

theorem cover {t : Tree} (h : Spreads us ((t :: ts).map Tree.span) (t :: ts)) :
    Spreads us [(Tree.covering kind (t :: ts)).span] [.covering kind (t :: ts)] := by
  intro hrow
  obtain ⟨hspan, hwithin⟩ := covering_span h hrow
  have h := h hrow
  have hfirst := h.placed t.span (by simp)
  have hlast := h.placed _ (List.mem_map_of_mem (List.getLast_mem (List.cons_ne_nil t ts)))
  have hover : (Tree.covering kind (t :: ts)).span.Over us := by
    refine ⟨?_, by rw [hspan]; exact hfirst.start, by rw [hspan]; exact hlast.stop⟩
    have := hwithin t.span (by simp)
    have := hfirst.some
    unfold Span.Within at *
    grind
  exact h.node hover (List.Sublist.refl _) hwithin

end Spreads

theorem Derives.spreads {p : Phrase} {us rest : List Token} {ts : List Tree} (h : Derives p us ts rest) :
    Spreads us (ts.map Tree.span) ts := by
  induction h with
  | name | operator | number | string => exact .leaf
  | noList | noMore | noSequence => exact .nil
  | list _ _ _ iht ihts | sequence _ _ _ _ iht ihts => exact iht.append ihts
  | more _ _ _ iht ihts => exact (iht.append ihts).skip
  | semicolon _ _ _ _ iht ihts => exact iht.append ihts.skip
  | parameters _ _ _ ih | arguments _ _ _ ih | block _ _ _ ih | listLiteral _ _ _ _ ih =>
    exact ih.close.token.enclose _ (by simp)
  | letDeclaration _ _ _ _ ihname ihvalue | constDeclaration _ _ _ _ ihname ihvalue =>
    exact (ihname.append ihvalue.skip).token.enclose _ (by simp)
  | letIn _ _ _ _ _ _ ihds ihbody => exact ((ihds.append ihbody.skip.skip).skip).token.enclose _ (by simp)
  | function _ _ _ _ ihname ihparams ihbody =>
    rw [← List.append_assoc]
    exact ((ihname.append ihparams).append ihbody).token.enclose _ (by simp)
  | ret _ _ ih | print _ _ ih => exact ih.token.enclose [] (by simp)
  | ofExpression _ _ ih => exact ih.cover
  | ifThen _ _ _ _ _ _ _ ihtest ihbody => exact ((ihtest.append ihbody.skip).skip).token.enclose _ (by simp)
  | @ifElse _ _ _ _ e _ _ _ _ test _ _ _ _ _ _ _ _ _ _ ihtest ihbody ihother =>
    have helse : Spreads _ _ [.node .elseStatement _ _] := (ihother.token (u := e)).enclose [] (by simp)
    exact ((ihtest.append (ihbody.append helse).skip).skip).token.enclose_join [test.span] (by simp [Tree.span])
  | @ifElseIf _ _ _ _ _ _ _ _ _ test _ _ _ _ _ _ _ _ _ _ ihtest ihbody ihlink =>
    exact ((ihtest.append (ihbody.append ihlink.skip).skip).skip).token.enclose_join [test.span] (by simp)
  | lambdaBlock _ _ _ ihparams ihbody | lambdaValue _ _ _ _ ihparams ihbody =>
    exact (ihparams.append ihbody.skip).enclose [] (by simp)
  | comparison _ _ _ _ ihleft ihop ihright | sum _ _ _ _ ihleft ihop ihright | product _ _ _ ihleft ihop ihright
  | power _ _ _ ihleft ihop ihright => exact (ihleft.append (ihop.append ihright)).cover
  | negative => exact Spreads.nil.token.token.enclose [] (by simp)
  | call _ _ ihname ihargs => exact (ihname.append ihargs).cover
  | access _ _ _ _ ihname ihindex =>
    exact (ihname.append ihindex.close.skip).enclose _ (by simp)
  | parenthesized _ _ _ _ ih => exact ih.skipLast.skip
  | ofDeclaration _ _ ih | ofLetIn _ ih | ofConditional _ ih | ofBlock _ ih | ofLambda _ _ ih | ofComparison _ _ ih
  | ofSum _ _ ih | ofProduct _ _ ih | ofPower _ ih | ofUnary _ _ ih | ofPrimary _ _ ih | ofName _ _ ih => exact ih

/-! ## Trees of a source -/

section
variable {source : List Char} (hsize : byteLength source < 2 ^ 32)

theorem IsBoundary.le {offset : Nat} (h : IsBoundary source offset) : offset ≤ byteLength source := by
  obtain ⟨before, after, rfl, rfl⟩ := h
  rw [byteLength_append]
  omega

include hsize

theorem Token.place_of_mem_scan {t : Token} (ht : t ∈ scan source) :
    t.span.start < t.span.stop ∧ t.span.Fits source := by
  obtain ⟨before, chars, after, rfl, hsome, hspan, -⟩ := (cut_scanFrom 0 source).exists_place t ht
  rw [byteLength_append, byteLength_append] at hsize
  rw [Nat.zero_add] at hspan
  have hstart : t.span.start.toNat = byteLength before := by rw [hspan, Span.start_ofOffsets (by omega)]
  have hstop : t.span.stop.toNat = byteLength before + byteLength chars := by rw [hspan, Span.stop_ofOffsets (by omega)]
  have hlt : t.span.start < t.span.stop := by
    have := byteLength_pos hsome
    rw [UInt32.lt_iff_toNat_lt]
    omega
  refine ⟨hlt, UInt32.le_of_lt hlt, ⟨before, chars ++ after, rfl, hstart⟩, before ++ chars, after, by simp, ?_⟩
  rw [hstop, byteLength_append]

theorem Token.row_scan : Row ((scan source).filter (·.kind ≠ .comment)) where
  some u hu := (place_of_mem_scan hsize (List.mem_filter.mp hu).1).1
  ordered := ((cut_scanFrom 0 source).pairwise (by omega)).filter _

theorem Span.Over.fits {s : Span} (h : s.Over (Token.scan source)) : s.Fits source := by
  obtain ⟨u, hu, hstart⟩ := h.start
  obtain ⟨v, hv, hstop⟩ := h.stop
  have hu := (Token.place_of_mem_scan hsize hu).2.start
  have hv := (Token.place_of_mem_scan hsize hv).2.stop
  rw [hstart] at hu
  rw [hstop] at hv
  exact ⟨UInt32.le_of_lt h.some, hu, hv⟩

theorem Span.whole_fits : (Span.ofOffsets 0 (byteLength source)).Fits source where
  forward := by
    rw [UInt32.le_iff_toNat_le, start_ofOffsets (by omega)]
    exact Nat.zero_le _
  start := ⟨[], source, rfl, start_ofOffsets (by omega)⟩
  stop := ⟨source, [], by simp, stop_ofOffsets hsize⟩

/-- The nodes of a parsed tree: where they stand, and where their children stand in them. -/
theorem Tree.nested_of_parse {tree : Tree} (h : Tree.parse source = .ok tree) : ∀ t ∈ tree.subtrees,
    t.span.Fits source ∧ (t.span.start < t.span.stop ∨ source = [] ∧ t.kind = .program) ∧
      (∀ u ∈ t.children, u.span.Within t.span) ∧ t.children.Pairwise fun u v => u.span.Before v.span := by
  obtain ⟨ts, rfl, hderives⟩ := Tree.derives_of_parse h
  have hspread := (hderives.spreads (Token.row_scan hsize)).mono List.filter_sublist.subset
  intro t ht
  rcases List.mem_cons.mp ht with rfl | ht
  · refine ⟨Span.whole_fits hsize, ?_, fun u hu => ?_, List.pairwise_map.mp hspread.ordered⟩
    · by_cases hsource : source = []
      · exact .inr ⟨hsource, rfl⟩
      · left
        rw [Tree.span, UInt32.lt_iff_toNat_lt, Span.start_ofOffsets (by omega), Span.stop_ofOffsets hsize]
        exact byteLength_pos hsource
    · have hu := (Span.Over.fits hsize (hspread.placed _ (List.mem_map_of_mem hu))).stop.le
      rw [Span.Within, Tree.span, UInt32.le_iff_toNat_le, UInt32.le_iff_toNat_le, Span.start_ofOffsets (by omega),
        Span.stop_ofOffsets hsize]
      exact ⟨Nat.zero_le _, hu⟩
  · obtain ⟨u, hu, ht⟩ := Tree.mem_subtreesAll.mp ht
    obtain ⟨hplaced, hinside⟩ := hspread.nested u hu t ht
    exact ⟨hplaced.fits hsize, .inl hplaced.some, hinside⟩

end
end Bies
