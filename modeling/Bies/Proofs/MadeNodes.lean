import Bies.Proofs.LoadingRuns
import Mathlib.Data.List.Flatten
import Mathlib.Data.List.Pairwise

/-!
# The nodes that have been made

Every node that loading makes belongs to a function. Nodes have numbers of their own, what stands inside a made
node has been made, and no node stands in two places. The nodes that are `held` stand inside no other one so
far.
-/

namespace Bies

namespace Node

def scope (f : FunctionId) : Node → FunctionId
  | .lambda _ _ _ g => g
  | _ => f

theorem scope_eq {f : FunctionId} {n : Node} (h : n.isLambda = false) : n.scope f = f := by
  cases n with
  | lambda => cases h
  | _ => rfl

def isFunction : Node → Bool
  | .funDecl .. | .lambda .. => true
  | _ => false

theorem isLambda_of_not_isFunction {n : Node} (h : n.isFunction = false) : n.isLambda = false := by
  cases n with
  | lambda => cases h
  | _ => rfl

end Node

namespace Loading

theorem Builds.isFunction {id : NodeId} {p : Piece} {ps : List Piece} {ns : List Node} {n : Node}
    (h : Builds id p ps ns n) : n.isFunction = false := by
  cases h with
  | known k => cases k <;> rfl
  | _ => rfl

theorem Builds.children {id : NodeId} {p : Piece} {ps : List Piece} {ns : List Node} {n : Node}
    (h : Builds id p ps ns n) : n.children.Sublist ns := by
  cases h with
  | known k => cases k <;> exact List.nil_sublist _
  | _ => exact List.Sublist.refl _

structure Registered (held : List Made) (s : Ledger) : Prop where
  nodup : (s.made.map (·.node.id)).Nodup
  lt : ∀ m ∈ s.made, m.node.id < s.nextId
  inner : ∀ m ∈ s.made, ∀ c ∈ m.node.children, Made.mk (m.node.scope m.function) c ∈ s.made
  once : (s.made.flatMap (fun m => m.node.children.map (·.id)) ++ held.map (·.node.id)).Nodup
  held : ∀ m ∈ held, m ∈ s.made
  entries : ∀ {f n}, s.table.Holds f n → Made.mk f n ∈ s.made

namespace Registered

variable {held : List Made} {s s' : Ledger} {f : FunctionId} {n : Node}

theorem sublist {kept : List Made} (h : Registered held s) (hk : kept.Sublist held) : Registered kept s where
  nodup := h.nodup
  lt := h.lt
  inner := h.inner
  once := h.once.sublist ((hk.map _).append_left _)
  held m hm := h.held m (hk.subset hm)
  entries := h.entries

theorem next (h : Registered held s) (hnext : s.nextId ≤ s'.nextId) (hmade : s'.made = s.made)
    (hentries : ∀ {f n}, s'.table.Holds f n → s.table.Holds f n ∨ Made.mk f n ∈ s.made) :
    Registered held s' where
  nodup := hmade ▸ h.nodup
  lt m hm := Nat.lt_of_lt_of_le (h.lt m (hmade ▸ hm)) hnext
  inner := by
    rw [hmade]
    exact h.inner
  once := hmade ▸ h.once
  held := hmade ▸ h.held
  entries he := hmade ▸ (hentries he).elim h.entries id

theorem number (h : Registered held s) : Registered held s.number := h.next (Nat.le_succ _) rfl .inl

theorem declare (h : Registered held s) (name : String) (params : List String) (f : FunctionId) :
    Registered held (s.declare name params f) :=
  h.next (Nat.le_refl _) rfl fun he => .inl (FunctionTable.holds_declare he)

theorem clear (h : Registered held s) (f : FunctionId) : Registered held (s.clear f) :=
  h.next (Nat.le_refl _) rfl fun he => .inl (FunctionTable.holds_clear he)

theorem append (h : Registered held s) (hn : Made.mk f n ∈ held) : Registered held (s.append f n) := by
  refine h.next (Nat.le_refl _) rfl fun he => (FunctionTable.holds_append he).imp_right ?_
  rintro ⟨rfl, rfl⟩
  exact h.held _ hn

theorem make {parts : List Made} (h : Registered (held ++ parts) s)
    (hc : (n.children.map (Made.mk (n.scope f))).Sublist parts) (hlt : n.id < s.nextId)
    (hnew : ∀ m ∈ s.made, m.node.id ≠ n.id) : Registered (held ++ [⟨f, n⟩]) (s.make f n) := by
  replace h := h.sublist (hc.append_left held)
  refine ⟨?_, ?_, fun m hm c hc => ?_, ?_, fun m hm => ?_, fun he => List.mem_cons_of_mem _ (h.entries he)⟩
  · refine List.nodup_cons.mpr ⟨fun hmem => ?_, h.nodup⟩
    obtain ⟨m, hm, hid⟩ := List.mem_map.mp hmem
    exact hnew m hm hid
  · exact List.forall_mem_cons.mpr ⟨hlt, h.lt⟩
  · apply List.mem_cons_of_mem
    rcases List.mem_cons.mp hm with rfl | hm
    · exact h.held _ (List.mem_append_right _ (List.mem_map_of_mem hc))
    · exact h.inner m hm c hc
  · have hnotMem : n.id ∉ s.made.flatMap (fun m => m.node.children.map (·.id)) ++
        (held ++ n.children.map (Made.mk (n.scope f))).map (·.node.id) := by
      intro hmem
      rcases List.mem_append.mp hmem with hmem | hmem
      · obtain ⟨m, hm, hid⟩ := List.mem_flatMap.mp hmem
        obtain ⟨c, hc, hid⟩ := List.mem_map.mp hid
        exact hnew _ (h.inner m hm c hc) hid
      · obtain ⟨m, hm, hid⟩ := List.mem_map.mp hmem
        exact hnew m (h.held m hm) hid
    have hall := List.nodup_cons.mpr ⟨hnotMem, h.once⟩
    rw [List.nodup_iff_count_le_one] at hall ⊢
    intro i
    have hi := hall i
    simp only [Ledger.make, List.map_append, List.map_map, Function.comp_def, List.count_append, List.count_cons,
      List.flatMap_cons, List.map_cons, List.map_nil, List.count_nil] at hi ⊢
    omega
  · rcases List.mem_append.mp hm with hm | hm
    · exact List.mem_cons_of_mem _ (h.held m (List.mem_append_left _ hm))
    · exact List.mem_singleton.mp hm ▸ List.mem_cons_self

theorem free (h : Registered held s) (hs : s.number.Grows s') :
    s.nextId < s'.nextId ∧ ∀ m ∈ s'.made, m.node.id ≠ s.nextId :=
  ⟨hs.nextId, fun m hm => (hs.made m hm).elim (fun hm => Nat.ne_of_lt (h.lt m hm)) Nat.ne_of_gt⟩

end Registered

theorem registered_initial : Registered [] {} where
  nodup := List.nodup_nil
  lt := by simp
  inner := by simp
  once := by simp
  held := by simp
  entries he := absurd he FunctionTable.not_holds_initial

theorem Loaded.registered {f : FunctionId} {ps : List Piece} {s s' : Ledger} {ns : List Node} (h : Loaded f ps s ns s') :
    ∀ {held : List Made}, Registered held s → Registered (held ++ ns.map (Made.mk f)) s' := by
  induction h with
  | nil => exact fun hs => by simpa using hs
  | cons _ _ ih ihs => exact fun hs => by simpa using ihs (ih hs)
  | @build _ _ _ _ _ n _ hb _ ih =>
    intro held hs
    have hns := ih hs
    obtain ⟨hlt, hne⟩ := hns.free (.refl _)
    rw [← hb.id_eq] at hlt hne
    refine hns.number.make ?_ hlt hne
    rw [n.scope_eq (Node.isLambda_of_not_isFunction hb.isFunction)]
    exact hb.children.map _
  | expr _ ih | inner _ _ ih => exact ih
  | declared _ _ ih | entry _ ih => exact fun hs => (ih hs).append (List.mem_append_right _ List.mem_cons_self)
  | lambda _ hb ih =>
    intro held hs
    obtain ⟨hlt, hne⟩ := hs.free (((Ledger.Grows.refl _).declare _ _ _).trans hb.grows.1)
    exact (ih (hs.number.declare _ _ _)).make (.refl _) hlt hne
  | lambdaDecl _ _ hb ih =>
    intro held hs
    obtain ⟨hlt, hne⟩ := hs.free ((((Ledger.Grows.refl _).declare _ _ _).clear _).trans hb.grows.1)
    exact (ih ((hs.number.declare _ _ _).clear _)).make (n := .funDecl ⟨_, _⟩ _ _ _) (List.nil_sublist _) hlt hne
  | funDecl _ _ _ ih =>
    intro held hs
    have hb := ih (hs.declare _ _ _)
    obtain ⟨hlt, hne⟩ := hb.free (.refl _)
    exact hb.number.make (n := .funDecl ⟨_, _⟩ _ _ _) (List.nil_sublist _) hlt hne

/-! ## Nodes inside each other -/

namespace Registered

variable {held : List Made} {s : Ledger} {n c d k : Node} {m : Made} {f g : FunctionId} {deep : Bool}

theorem eq_of_id_eq {l : Made} (h : Registered held s) (hm : m ∈ s.made) (hl : l ∈ s.made)
    (hid : m.node.id = l.node.id) : m = l :=
  List.inj_on_of_nodup_map h.nodup hm hl hid

theorem parent_unique {l : Made} {i j : Nat} (h : Registered held s) (hm : m ∈ s.made) (hl : l ∈ s.made)
    (hi : m.node.children[i]? = some c) (hj : l.node.children[j]? = some d) (hid : c.id = d.id) : m = l ∧ i = j := by
  obtain ⟨hnodup, hdisjoint⟩ := List.nodup_flatMap.mp h.once.of_append_left
  have hi' : (m.node.children.map (·.id))[i]? = some c.id := by rw [List.getElem?_map, hi, Option.map_some]
  have hj' : (l.node.children.map (·.id))[j]? = some c.id := by rw [List.getElem?_map, hj, Option.map_some, hid]
  have hml : m = l := by
    by_contra hne
    have : Std.Symm (Function.onFun List.Disjoint fun m : Made => m.node.children.map (·.id)) :=
      ⟨fun _ _ hd => fun _ hc hc' => hd hc' hc⟩
    exact hdisjoint.forall hm hl hne (List.mem_of_getElem? hi') (List.mem_of_getElem? hj')
  subst hml
  exact ⟨rfl, (List.getElem?_inj (List.getElem?_eq_some_iff.mp hi').1 (hnodup m hm)).mp (hi'.trans hj'.symm)⟩

theorem exists_of_inside (h : Registered held s) (hn : Made.mk f n ∈ s.made) (hk : k = n ∨ k ∈ n.inside deep) :
    ∃ g, Made.mk g k ∈ s.made := by
  rcases hk with rfl | hk
  · exact ⟨f, hn⟩
  induction Node.mem_inside_iff.mp hk using Relation.TransGen.head_induction_on with
  | single hc => exact ⟨_, h.inner _ hn _ hc.1⟩
  | head hc hp ih =>
    obtain ⟨g, hg⟩ := ih (Node.mem_inside_iff.mpr hp)
    exact ⟨_, h.inner _ hg _ hc.1⟩

theorem mem_of_inside (h : Registered held s) (hn : Made.mk f n ∈ s.made) (hk : k ∈ n.inside false) :
    Made.mk f k ∈ s.made := by
  have hinner : ∀ {c p : Node}, c.IsPart false p → Made.mk f p ∈ s.made → Made.mk f c ∈ s.made := by
    intro c p hc hp
    have hmade := h.inner _ hp _ hc.1
    rwa [Node.scope_eq (Bool.eq_false_iff.mpr fun hl => Bool.noConfusion (hc.2 hl))] at hmade
  induction Node.mem_inside_iff.mp hk using Relation.TransGen.head_induction_on with
  | single hc => exact hinner hc hn
  | head hc hp ih => exact hinner hc (ih (Node.mem_inside_iff.mpr hp))

theorem comparable (h : Registered held s) (hc : Made.mk f c ∈ s.made) (hd : Made.mk g d ∈ s.made)
    (hkc : k = c ∨ k ∈ c.inside deep) (hkd : k = d ∨ k ∈ d.inside deep) :
    c = d ∨ c ∈ d.inside deep ∨ d ∈ c.inside deep := by
  let step : Node → Node → Prop := fun x y => x.IsPart deep y ∧ ∃ i, Made.mk i y ∈ s.made
  have hunique : Relator.RightUnique step := by
    rintro x y z ⟨hxy, i, hy⟩ ⟨hxz, j, hz⟩
    obtain ⟨a, ha⟩ := List.getElem?_of_mem hxy.1
    obtain ⟨b, hb⟩ := List.getElem?_of_mem hxz.1
    exact congrArg Made.node (h.parent_unique hy hz ha hb rfl).1
  have hup : ∀ {k n i}, Made.mk i n ∈ s.made → (k = n ∨ k ∈ n.inside deep) →
    Relation.ReflTransGen step k n := by
    rintro k n i hn (rfl | hk)
    · exact .refl
    · induction Node.mem_inside_iff.mp hk using Relation.TransGen.head_induction_on with
      | single hc => exact .single ⟨hc, i, hn⟩
      | head hc hp ih =>
        have hp := Node.mem_inside_iff.mpr hp
        exact .head ⟨hc, h.exists_of_inside hn (.inr hp)⟩ (ih hp)
  have hdown : ∀ {x y}, Relation.ReflTransGen step x y → y = x ∨ x ∈ y.inside deep := by
    intro x y hxy
    exact (Relation.reflTransGen_iff_eq_or_transGen.mp hxy).imp_right fun hxy =>
      Node.mem_inside_iff.mpr (hxy.lift id fun _ _ hstep => hstep.1)
  rcases Relation.ReflTransGen.total_of_right_unique hunique (hup hc hkc) (hup hd hkd) with hcd | hdc
  · exact (hdown hcd).imp Eq.symm .inl
  · exact (hdown hdc).imp_right .inr

theorem not_inside_sibling (h : Registered held s) (hn : Made.mk f n ∈ s.made) (hc : c ∈ n.children)
    (hd : d ∈ n.children) : c ∉ d.inside true := by
  intro hcd
  obtain ⟨p, hcp, hpd⟩ := Relation.TransGen.head'_iff.mp (Node.mem_inside_iff.mp hcd)
  have hp : p = d ∨ p ∈ d.inside true :=
    (Relation.reflTransGen_iff_eq_or_transGen.mp hpd).imp Eq.symm Node.mem_inside_iff.mpr
  obtain ⟨g, hg⟩ := h.exists_of_inside (h.inner _ hn d hd) hp
  obtain ⟨i, hi⟩ := List.getElem?_of_mem hc
  obtain ⟨j, hj⟩ := List.getElem?_of_mem hcp.1
  -- the node around `c` is `n`, and cannot stand inside `d`, which stands inside `n`
  obtain rfl : n = p := congrArg Made.node (h.parent_unique hn hg hi hj rfl).1
  have hdn : d ∈ n.inside true := Node.mem_inside.mpr ⟨d, ⟨hd, fun _ => rfl⟩, .inl rfl⟩
  rcases hp with rfl | hp
  · exact Nat.lt_irrefl _ (Node.length_inside_lt hdn)
  · exact Nat.lt_asymm (Node.length_inside_lt hdn) (Node.length_inside_lt hp)

theorem exists_of_mem_ids {i : NodeId} (h : Registered held s) (hn : Made.mk f n ∈ s.made)
    (hi : i ∈ n.id :: (n.inside deep).map Node.id) :
    ∃ g k, Made.mk g k ∈ s.made ∧ (k = n ∨ k ∈ n.inside deep) ∧ k.id = i := by
  rcases List.mem_cons.mp hi with rfl | hi
  · exact ⟨f, n, hn, .inl rfl, rfl⟩
  · obtain ⟨k, hk, rfl⟩ := List.mem_map.mp hi
    obtain ⟨g, hg⟩ := h.exists_of_inside hn (.inr hk)
    exact ⟨g, k, hg, .inr hk, rfl⟩

theorem comparable_of_ids {i : NodeId} (h : Registered held s) (hc : Made.mk f c ∈ s.made)
    (hd : Made.mk g d ∈ s.made) (hic : i ∈ c.id :: (c.inside deep).map Node.id)
    (hid : i ∈ d.id :: (d.inside deep).map Node.id) : c = d ∨ c ∈ d.inside deep ∨ d ∈ c.inside deep := by
  obtain ⟨a, k, hk, hkc, rfl⟩ := h.exists_of_mem_ids hc hic
  obtain ⟨b, l, hl, hld, heq⟩ := h.exists_of_mem_ids hd hid
  obtain rfl : l = k := congrArg Made.node (h.eq_of_id_eq hl hk heq)
  exact h.comparable hc hd hkc hld

theorem notMem_inside (h : Registered (held ++ [⟨f, n⟩]) s) (hc : Made.mk g c ∈ s.made) : n ∉ c.inside deep := by
  intro hn
  obtain ⟨p, hnp, hp⟩ := Relation.TransGen.head'_iff.mp (Node.mem_inside_iff.mp hn)
  obtain ⟨i, hi⟩ := h.exists_of_inside hc
    ((Relation.reflTransGen_iff_eq_or_transGen.mp hp).imp Eq.symm Node.mem_inside_iff.mpr)
  refine (List.nodup_append'.mp h.once).2.2 (List.mem_flatMap.mpr ⟨_, hi, List.mem_map_of_mem hnp.1⟩) ?_
  exact List.mem_map_of_mem (List.mem_append_right held List.mem_cons_self)

theorem ids_nodup (h : Registered held s) (n : Node) {f : FunctionId} (hn : Made.mk f n ∈ s.made) : n.ids.Nodup := by
  rw [n.ids_eq, List.nodup_cons, List.nodup_flatMap]
  refine ⟨fun hmem => ?_, fun c hc => h.ids_nodup c (h.inner _ hn c hc), List.pairwise_iff_getElem.mpr ?_⟩
  · obtain ⟨c, hc, hi⟩ := List.mem_flatMap.mp hmem
    obtain ⟨g, k, hk, hkc, hid⟩ := h.exists_of_mem_ids (h.inner _ hn c hc) hi
    obtain rfl : k = n := congrArg Made.node (h.eq_of_id_eq hk hn hid)
    exact Nat.lt_irrefl _ (Node.length_inside_lt (Node.mem_inside.mpr ⟨c, ⟨hc, fun _ => rfl⟩, hkc⟩))
  · intro i j hi hj hij x hxi hxj
    have hci := List.getElem_mem hi
    have hcj := List.getElem_mem hj
    rcases h.comparable_of_ids (h.inner _ hn _ hci) (h.inner _ hn _ hcj) hxi hxj with heq | hin | hin
    · have := (h.parent_unique hn hn (List.getElem?_eq_getElem hi) (List.getElem?_eq_getElem hj)
        (congrArg Node.id heq)).2
      exact Nat.ne_of_lt hij this
    · exact h.not_inside_sibling hn hci hcj hin
    · exact h.not_inside_sibling hn hcj hci hin
termination_by (n.inside true).length
decreasing_by exact Node.length_inside_child hc

end Registered

end Loading

end Bies
