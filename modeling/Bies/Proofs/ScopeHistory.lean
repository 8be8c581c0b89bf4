import Bies.Proofs.FoldedNodes

/-!
# Scopes and their history

What a stack of scopes knows is told by the sequence of operations that made it. A scope is named by the place
in the sequence of the operation that opened it, so of two open scopes the inner one has the larger name.
`Knows` and `Has` say from the history what one scope holds, and `lookup_run` what is found in the stack.
-/

namespace Bies.ScopeStack

inductive Operation where
  | letIn
  | block
  | function (params : List String)
  | pop
  | declare (name : String) (value : Node)

def Operation.kind? : Operation → Option ScopeKind
  | letIn => some .letIn
  | block => some .block
  | function _ => some .function
  | pop => none
  | declare .. => none

def apply (s : ScopeStack) : Operation → ScopeStack
  | .letIn => s.pushLetIn
  | .block => s.pushBlock
  | .function params => s.pushFunction params
  | .pop => s.pop
  | .declare name value => s.declare name value

def run (ops : List Operation) : ScopeStack := ops.foldl apply empty

section
variable (ops : List Operation)

/-- The scopes open after the first operations, innermost first. -/
def opened : Nat → List Nat
  | 0 => []
  | k + 1 =>
    match ops[k]? with
    | some .letIn | some .block | some (.function _) => k :: opened k
    | some .pop => (opened k).tail
    | some (.declare ..) | none => opened k

def kindAt (T : Nat) : Option ScopeKind := ops[T]?.bind Operation.kind?

def Declares (j : Nat) (x : String) : Prop := ∃ value, ops[j]? = some (.declare x value)

def Apart (T j : Nat) : Prop := ∃ F ∈ opened ops j, T < F ∧ kindAt ops F = some .function

/-- Of the first `k` operations the latest declaration of `x` since the let-in `S` was opened stands directly in
`S` and gives `x` the value, if those in functions opened after `S` are left out. -/
def Knows (k S : Nat) (x : String) (value : Node) : Prop :=
  kindAt ops S = some .letIn ∧
    ∃ i < k, ops[i]? = some (.declare x value) ∧ (opened ops i).head? = some S ∧
      ∀ j, i < j → j < k → Declares ops j x → Apart ops S j

/-- The scope has `x` as a parameter, or one of the first `k` operations declares `x` directly in it or, if it
is a function, anywhere in it but in a further function. -/
def Has (k T : Nat) (x : String) : Prop :=
  (∃ params, ops[T]? = some (.function params) ∧ x ∈ params) ∨
    ∃ j < k, Declares ops j x ∧
      ((opened ops j).head? = some T ∨ kindAt ops T = some .function ∧ T ∈ opened ops j ∧ ¬Apart ops T j)

end

/-! ## Open scopes -/

section
variable {ops : List Operation} {k T : Nat} {x : String} {value : Node}

theorem opened_of_kind {op : Operation} {kind : ScopeKind} (hop : ops[k]? = some op) (hkind : op.kind? = some kind) :
    opened ops (k + 1) = k :: opened ops k := by
  rw [opened, hop]
  cases op with
  | pop => cases hkind
  | declare => cases hkind
  | letIn => rfl
  | block => rfl
  | function => rfl

theorem opened_pop (hop : ops[k]? = some .pop) : opened ops (k + 1) = (opened ops k).tail := by
  rw [opened, hop]

theorem opened_declare (hop : ops[k]? = some (.declare x value)) : opened ops (k + 1) = opened ops k := by
  rw [opened, hop]

theorem lt_of_mem_opened : ∀ {k : Nat}, T ∈ opened ops k → T < k
  | 0, h => absurd h List.not_mem_nil
  | k + 1, h => by
    rw [opened] at h
    split at h
    iterate 3
      rcases List.mem_cons.mp h with rfl | h
      · exact Nat.lt_succ_self _
      · exact Nat.lt_succ_of_lt (lt_of_mem_opened h)
    · exact Nat.lt_succ_of_lt (lt_of_mem_opened (List.mem_of_mem_tail h))
    all_goals exact Nat.lt_succ_of_lt (lt_of_mem_opened h)

theorem pairwise_opened : ∀ k : Nat, (opened ops k).Pairwise (· > ·)
  | 0 => .nil
  | k + 1 => by
    have ih := pairwise_opened k
    rw [opened]
    split
    iterate 3 exact ih.cons fun _ => lt_of_mem_opened
    · exact ih.tail
    all_goals exact ih

theorem not_apart_of_head (h : (opened ops k).head? = some T) : ¬Apart ops T k := by
  rintro ⟨F, hF, hlt, -⟩
  obtain ⟨rest, hrest⟩ := List.head?_eq_some_iff.mp h
  have hsorted : (opened ops k).Pairwise (· > ·) := pairwise_opened k
  rw [hrest] at hF hsorted
  rcases List.mem_cons.mp hF with rfl | hF
  · exact Nat.lt_irrefl _ hlt
  · exact Nat.lt_asymm hlt (List.rel_of_pairwise_cons hsorted hF)

/-! ## One more operation -/

theorem knows_succ (h : ¬Declares ops k x) : Knows ops (k + 1) T x value ↔ Knows ops k T x value := by
  refine and_congr_right fun _ => exists_congr fun i => ?_
  constructor
  · rintro ⟨hi, hop, hhead, hlater⟩
    have hik : i ≠ k := fun hik => h ⟨value, hik ▸ hop⟩
    exact ⟨by omega, hop, hhead, fun j hj hjk => hlater j hj (by omega)⟩
  · rintro ⟨hi, hop, hhead, hlater⟩
    refine ⟨by omega, hop, hhead, fun j hj hjk hdeclares => ?_⟩
    have hne : j ≠ k := fun hne => h (hne ▸ hdeclares)
    exact hlater j hj (by omega) hdeclares

theorem has_succ (h : ¬Declares ops k x) : Has ops (k + 1) T x ↔ Has ops k T x := by
  refine or_congr_right (exists_congr fun j => ?_)
  constructor
  · rintro ⟨hj, hdeclares, hin⟩
    have hne : j ≠ k := fun hne => h (hne ▸ hdeclares)
    exact ⟨by omega, hdeclares, hin⟩
  · rintro ⟨hj, hdeclares, hin⟩
    exact ⟨by omega, hdeclares, hin⟩

theorem knows_declare {v : Node} (hop : ops[k]? = some (.declare x v)) :
    Knows ops (k + 1) T x value ↔ kindAt ops T = some .letIn ∧ (opened ops k).head? = some T ∧ v = value ∨
      Knows ops k T x value ∧ Apart ops T k := by
  constructor
  · rintro ⟨hkind, i, hi, hopi, hhead, hlater⟩
    rcases Nat.lt_succ_iff_lt_or_eq.mp hi with hlt | rfl
    · exact .inr ⟨⟨hkind, i, hlt, hopi, hhead, fun j hj hjk => hlater j hj (by omega)⟩,
        hlater k hlt (by omega) ⟨v, hop⟩⟩
    · rw [hop] at hopi
      cases hopi
      exact .inl ⟨hkind, hhead, rfl⟩
  · rintro (⟨hkind, hhead, rfl⟩ | ⟨⟨hkind, i, hi, hopi, hhead, hlater⟩, hapart⟩)
    · exact ⟨hkind, k, by omega, hop, hhead, fun j hj hjk => by omega⟩
    · refine ⟨hkind, i, by omega, hopi, hhead, fun j hj hjk hdeclares => ?_⟩
      rcases Nat.lt_succ_iff_lt_or_eq.mp hjk with hlt | rfl
      · exact hlater j hj hlt hdeclares
      · exact hapart

theorem has_declare (h : Declares ops k x) : Has ops (k + 1) T x ↔ Has ops k T x ∨
    ((opened ops k).head? = some T ∨ kindAt ops T = some .function ∧ T ∈ opened ops k ∧ ¬Apart ops T k) := by
  unfold Has
  rw [or_assoc]
  refine or_congr_right ⟨?_, ?_⟩
  · rintro ⟨j, hj, hdeclares, hin⟩
    rcases Nat.lt_succ_iff_lt_or_eq.mp hj with hlt | rfl
    · exact .inl ⟨j, hlt, hdeclares, hin⟩
    · exact .inr hin
  · rintro (⟨j, hj, hdeclares, hin⟩ | hin)
    · exact ⟨j, by omega, hdeclares, hin⟩
    · exact ⟨k, by omega, h, hin⟩

/-! ## What a scope holds -/

variable (ops) in
structure Mirrors (k : Nat) (s : Scope) (T : Nat) : Prop where
  kind : kindAt ops T = some s.kind
  knows : ∀ x value, s.get? x = some (some value) ↔ Knows ops k T x value
  has : ∀ x, s.get? x ≠ none ↔ Has ops k T x

theorem Mirrors.succ {s : Scope} (h : Mirrors ops k s T) (hop : ∀ x, ¬Declares ops k x) : Mirrors ops (k + 1) s T :=
  ⟨h.kind, fun x value => (h.knows x value).trans (knows_succ (hop x)).symm,
    fun x => (h.has x).trans (has_succ (hop x)).symm⟩

theorem mirrors_new {op : Operation} {kind : ScopeKind} {names : List String} (hop : ops[k]? = some op)
    (hkind : op.kind? = some kind)
    (hnames : ∀ x, x ∈ names ↔ ∃ params, op = .function params ∧ x ∈ params) :
    Mirrors ops (k + 1) ⟨kind, names.map (·, none)⟩ k := by
  have hearly : ∀ {j : Nat}, j < k + 1 → k ∉ opened ops j :=
    fun hj hmem => absurd (lt_of_mem_opened hmem) (by omega)
  have hget : ∀ x, Scope.get? ⟨kind, names.map (·, none)⟩ x = if x ∈ names then some none else none :=
    fun x => Unfolding.lookup_params x names
  refine ⟨by rw [kindAt, hop]; exact hkind, fun x value => ?_, fun x => ?_⟩
  · rw [hget]
    refine ⟨fun h => ?_, fun ⟨_, i, hi, _, hhead, _⟩ => absurd (List.mem_of_head? hhead) (hearly hi)⟩
    split at h <;> cases h
  · rw [hget, ite_ne_right_iff, hnames]
    constructor
    · rintro ⟨⟨params, rfl, hx⟩, -⟩
      exact .inl ⟨params, hop, hx⟩
    · rintro (⟨params, hparams, hx⟩ | ⟨j, hj, -, hhead | ⟨-, hmem, -⟩⟩)
      · rw [hop] at hparams
        exact ⟨⟨params, Option.some.inj hparams, hx⟩, Option.some_ne_none _⟩
      · exact absurd (List.mem_of_head? hhead) (hearly hj)
      · exact absurd hmem (hearly hj)

section
variable {s : Scope} {v : Node} (h : Mirrors ops k s T) (hop : ops[k]? = some (.declare x v))
include h hop

theorem Mirrors.declare {s' : Scope} (hkind : s'.kind = s.kind) (hother : ∀ y, y ≠ x → s'.get? y = s.get? y)
    (hknows : ∀ value, s'.get? x = some (some value) ↔ s.kind = .letIn ∧ (opened ops k).head? = some T ∧
      v = value ∨ s.get? x = some (some value) ∧ Apart ops T k)
    (hhas : s'.get? x ≠ none ↔ s.get? x ≠ none ∨ ((opened ops k).head? = some T ∨ s.kind = .function ∧
      T ∈ opened ops k ∧ ¬Apart ops T k)) :
    Mirrors ops (k + 1) s' T := by
  have hsame : ∀ {y}, y ≠ x → ¬Declares ops k y := by
    rintro y hy ⟨w, hw⟩
    rw [hop] at hw
    cases hw
    exact hy rfl
  have hkinds : ∀ kind, s.kind = kind ↔ kindAt ops T = some kind := fun kind => by rw [h.kind, Option.some.injEq]
  refine ⟨h.kind.trans (congrArg some hkind.symm), fun y value => ?_, fun y => ?_⟩
  · by_cases hy : y = x
    · rw [hy, hknows, knows_declare hop, ← h.knows, hkinds]
    · rw [hother y hy, h.knows, knows_succ (hsame hy)]
  · by_cases hy : y = x
    · rw [hy, hhas, has_declare ⟨v, hop⟩, ← h.has, hkinds]
    · rw [hother y hy, h.has, has_succ (hsame hy)]

theorem Mirrors.apart (hapart : Apart ops T k) : Mirrors ops (k + 1) s T := by
  have hhead : (opened ops k).head? ≠ some T := fun hhead => not_apart_of_head hhead hapart
  exact h.declare hop rfl (fun _ _ => rfl) (fun value => by simp [hhead, hapart]) (by simp [hhead, hapart])

theorem Mirrors.insert {value : Option Node}
    (hin : (opened ops k).head? = some T ∨ s.kind = .function ∧ T ∈ opened ops k) (hapart : ¬Apart ops T k)
    (hvalue : ∀ w, value = some w ↔ s.kind = .letIn ∧ (opened ops k).head? = some T ∧ v = w) :
    Mirrors ops (k + 1) (s.insert x value) T := by
  refine h.declare hop rfl (fun y hy => by rw [Scope.get?_insert, if_neg hy]) (fun w => ?_) ?_
  · rw [Scope.get?_insert, if_pos rfl, Option.some.injEq, hvalue]
    simp [hapart]
  · rw [Scope.get?_insert, if_pos rfl]
    simpa [hapart] using .inr hin

theorem Mirrors.forget (hkind : s.kind ≠ .function) (hhead : (opened ops k).head? ≠ some T)
    (hapart : ¬Apart ops T k) : Mirrors ops (k + 1) (s.forget x) T := by
  unfold Scope.forget
  split
  next hx =>
    have hx : s.get? x ≠ none := Option.isSome_iff_ne_none.mp hx
    refine h.declare hop rfl (fun y hy => by rw [Scope.get?_insert, if_neg hy]) (fun w => ?_) ?_
    · rw [Scope.get?_insert, if_pos rfl]
      simp [hhead, hapart]
    · rw [Scope.get?_insert, if_pos rfl]
      simp [hx]
  next hx =>
    have hx : s.get? x = none := Option.not_isSome_iff_eq_none.mp hx
    exact h.declare hop rfl (fun _ _ => rfl) (fun w => by simp [hx, hhead]) (by simp [hx, hhead, hkind])

end

/-! ## What the stack holds -/

section
variable {v : Node} (hop : ops[k]? = some (.declare x v))
include hop

theorem mirrors_outside {F : Nat} {rest : List Nat} {scopes : List Scope} (hF : F ∈ opened ops k)
    (hkind : kindAt ops F = some .function) (hlt : ∀ T ∈ rest, T < F)
    (h : List.Forall₂ (Mirrors ops k) scopes rest) : List.Forall₂ (Mirrors ops (k + 1)) scopes rest := by
  induction h with
  | nil => exact .nil
  | cons hs _ ih =>
    exact .cons (hs.apart hop ⟨F, hF, hlt _ (List.mem_cons_self ..), hkind⟩)
      (ih fun T hT => hlt T (List.mem_cons_of_mem _ hT))

/-- The induction is on the scopes around the declaration; `inner` are those passed, all of the same function. -/
theorem mirrors_around : ∀ {scopes : List Scope} {outer : List Nat} (inner : List Nat) (_ : inner ≠ [])
    (_ : ∀ F ∈ inner, kindAt ops F ≠ some .function) (_ : opened ops k = inner ++ outer)
    (_ : List.Forall₂ (Mirrors ops k) scopes outer), List.Forall₂ (Mirrors ops (k + 1)) (forget x scopes) outer
  | [], _, _, _, _, _, h => by
    cases h
    exact .nil
  | s :: scopes, _, inner, hne, hinner, hopened, h => by
    obtain ⟨T, outer, hs, hrest, rfl⟩ := List.forall₂_cons_left_iff.mp h
    have hsorted : (opened ops k).Pairwise (· > ·) := pairwise_opened k
    rw [hopened, List.pairwise_append] at hsorted
    obtain ⟨-, houter, hacross⟩ := hsorted
    have hT : T ∈ opened ops k := by simp [hopened]
    have hlt : ∀ T' ∈ outer, T' < T := fun T' hT' => List.rel_of_pairwise_cons houter hT'
    have hapart : ¬Apart ops T k := by
      rintro ⟨F, hF, hTF, hfunction⟩
      rw [hopened, List.mem_append, List.mem_cons] at hF
      rcases hF with hF | rfl | hF
      · exact hinner F hF hfunction
      · exact Nat.lt_irrefl _ hTF
      · exact Nat.lt_asymm hTF (hlt F hF)
    unfold ScopeStack.forget
    split
    next hkind =>
      refine .cons (hs.insert hop (.inr ⟨hkind, hT⟩) hapart fun w => ?_) ?_
      · simp [hkind]
      · exact mirrors_outside hop hT (hs.kind.trans (congrArg some hkind)) hlt hrest
    next hkind =>
      have hhead : (opened ops k).head? ≠ some T := by
        obtain ⟨first, inner', rfl⟩ := List.exists_cons_of_ne_nil hne
        rw [hopened]
        intro heq
        cases heq
        exact Nat.lt_irrefl _ (hacross T (List.mem_cons_self ..) T (List.mem_cons_self ..))
      refine .cons (hs.forget hop hkind hhead hapart)
        (mirrors_around (inner ++ [T]) (by simp) ?_ (by simp [hopened]) hrest)
      intro F hF
      rcases List.mem_append.mp hF with hF | hF
      · exact hinner F hF
      · obtain rfl := List.mem_singleton.mp hF
        rw [hs.kind]
        exact fun heq => hkind (Option.some.inj heq)

theorem mirrors_declare {stack : ScopeStack} (h : List.Forall₂ (Mirrors ops k) stack.scopes (opened ops k)) :
    List.Forall₂ (Mirrors ops (k + 1)) (stack.declare x v).scopes (opened ops k) := by
  obtain ⟨scopes⟩ := stack
  change List.Forall₂ _ scopes _ at h
  unfold ScopeStack.declare
  generalize hopened : opened ops k = places at h
  cases h with
  | nil => exact .nil
  | @cons s T scopes outer hs hrest =>
    have hhead : (opened ops k).head? = some T := by rw [hopened]; rfl
    have hsorted : (opened ops k).Pairwise (· > ·) := pairwise_opened k
    rw [hopened] at hsorted
    have hinsert : ∀ value : Option Node, (∀ w, value = some w ↔ s.kind = .letIn ∧ v = w) →
        Mirrors ops (k + 1) (s.insert x value) T :=
      fun _ hvalue => hs.insert hop (.inl hhead) (not_apart_of_head hhead) fun w => by simp [hvalue, hhead]
    have haround : s.kind ≠ .function → List.Forall₂ (Mirrors ops (k + 1)) (forget x scopes) outer := by
      intro hkind
      refine mirrors_around hop [T] (by simp) ?_ hopened hrest
      simp [hs.kind, hkind]
    dsimp only
    split
    next hkind => exact .cons (hinsert (some v) (by simp [hkind])) (haround (by simp [hkind]))
    next hkind => exact .cons (hinsert none (by simp [hkind])) (haround (by simp [hkind]))
    next hkind =>
      refine .cons (hinsert none (by simp [hkind]))
        (mirrors_outside hop (List.mem_of_head? hhead) (hs.kind.trans ?_) ?_ hrest)
      · rw [hkind]
      · exact fun T' hT' => List.rel_of_pairwise_cons hsorted hT'

end

theorem run_take_succ {op : Operation} (hop : ops[k]? = some op) :
    run (ops.take (k + 1)) = (run (ops.take k)).apply op := by
  rw [run, List.take_add_one, hop, List.foldl_append]
  rfl

theorem mirrors_step {op : Operation} (hop : ops[k]? = some op)
    (h : List.Forall₂ (Mirrors ops k) (run (ops.take k)).scopes (opened ops k)) :
    List.Forall₂ (Mirrors ops (k + 1)) (run (ops.take (k + 1))).scopes (opened ops (k + 1)) := by
  have hold : (∀ y w, op ≠ .declare y w) → List.Forall₂ (Mirrors ops (k + 1)) (run (ops.take k)).scopes
    (opened ops k) := by
    intro hne
    refine h.imp fun s T hs => hs.succ ?_
    rintro y ⟨w, hw⟩
    rw [hop] at hw
    exact hne y w (Option.some.inj hw)
  rw [run_take_succ hop]
  cases op with
  | letIn =>
    rw [opened_of_kind hop rfl]
    exact .cons (mirrors_new hop rfl (by simp)) (hold (by simp))
  | block =>
    rw [opened_of_kind hop rfl]
    exact .cons (mirrors_new hop rfl (by simp)) (hold (by simp))
  | function params =>
    rw [opened_of_kind hop rfl]
    exact .cons (mirrors_new hop rfl (by simp)) (hold (by simp))
  | pop =>
    rw [opened_pop hop]
    have htail := hold (by simp)
    show List.Forall₂ _ (run (ops.take k)).scopes.tail _
    generalize (run (ops.take k)).scopes = scopes at htail ⊢
    generalize opened ops k = places at htail ⊢
    cases htail with
    | nil => exact .nil
    | cons _ htail => exact htail
  | declare y w =>
    rw [opened_declare hop]
    exact mirrors_declare hop h

theorem mirrors_run : ∀ k, k ≤ ops.length → List.Forall₂ (Mirrors ops k) (run (ops.take k)).scopes (opened ops k)
  | 0, _ => .nil
  | k + 1, hk => mirrors_step (List.getElem?_eq_getElem hk) (mirrors_run k (by omega))

theorem lookup_of_mirrors {scopes : List Scope} {places : List Nat} (h : List.Forall₂ (Mirrors ops k) scopes places)
    (hsorted : places.Pairwise (· > ·)) : lookup ⟨scopes⟩ x = some value ↔
      ∃ S ∈ places, Knows ops k S x value ∧ ∀ T ∈ places, S < T → ¬Has ops k T x := by
  induction h with
  | nil => simp [lookup]
  | @cons s T scopes places hs _ ih =>
    have hlt : ∀ S ∈ places, S < T := fun S hS => List.rel_of_pairwise_cons hsorted hS
    unfold lookup
    rw [List.findSome?_cons]
    cases hget : s.get? x with
    | none =>
      have hhas : ¬Has ops k T x := fun hhas => (hs.has x).mpr hhas hget
      have hknows : ¬Knows ops k T x value := fun hknows => by
        rw [← hs.knows, hget] at hknows
        cases hknows
      refine (ih (List.Pairwise.of_cons hsorted)).trans ?_
      simp only [List.exists_mem_cons_iff, List.forall_mem_cons, hknows, false_and, false_or]
      exact exists_congr fun S => and_congr_right fun hS => and_congr_right fun _ => (and_iff_right fun _ => hhas).symm
    | some found =>
      have hhas : Has ops k T x := (hs.has x).mp (by simp [hget])
      constructor
      · intro hfound
        cases hfound
        refine ⟨T, List.mem_cons_self .., (hs.knows x value).mp hget, fun T' hT' hTT' => ?_⟩
        rcases List.mem_cons.mp hT' with rfl | hT'
        · exact absurd hTT' (Nat.lt_irrefl _)
        · exact absurd hTT' (Nat.lt_asymm (hlt T' hT'))
      · rintro ⟨S, hS, hknows, hinner⟩
        rcases List.mem_cons.mp hS with rfl | hS
        · rw [← hs.knows, hget] at hknows
          exact Option.some.inj hknows
        · exact absurd hhas (hinner T (List.mem_cons_self ..) (hlt S hS))

end

/-- A value is found exactly if an open let-in knows it and no scope opened after that let-in and still open has
the name. -/
theorem lookup_run (ops : List Operation) (x : String) (value : Node) : (run ops).lookup x = some value ↔
    ∃ S ∈ opened ops ops.length, Knows ops ops.length S x value ∧
      ∀ T ∈ opened ops ops.length, S < T → ¬Has ops ops.length T x := by
  have h := mirrors_run ops.length (Nat.le_refl ops.length)
  rw [List.take_length] at h
  exact lookup_of_mirrors h (pairwise_opened _)

end Bies.ScopeStack
