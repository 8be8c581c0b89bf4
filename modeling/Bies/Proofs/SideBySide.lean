import Bies.Outcome
import Mathlib.Order.Basic

/-!
# Computations side by side

Two computations that may fail, each with a state of its own, come to related ends from related states. What is
related depends on a world, and a run may lead to a later world, in which more is. Where nothing is made on the
way, one world is enough.
-/

namespace Bies

/-! ## Kinds of errors -/

inductive ErrorKind where
  | expected
  | unexpectedEnd
  | unterminatedString
  | badUnaryMinus
  | malformed
  | unknownOperator
  | unboundIdentifier
  | internal
deriving DecidableEq, Repr

def ParseError.kind : ParseError → ErrorKind
  | .expected .. => .expected
  | .unexpectedEnd .. => .unexpectedEnd
  | .unterminatedString .. => .unterminatedString
  | .badUnaryMinus .. => .badUnaryMinus

def CompileError.kind : CompileError → ErrorKind
  | .parse e => e.kind
  | .malformed .. => .malformed
  | .unknownOperator .. => .unknownOperator
  | .unboundIdentifier .. => .unboundIdentifier
  | .internal .. => .internal

structure CompileError.Alike (spans : Span → Span → Prop) (e e' : CompileError) : Prop where
  kind_eq : e.kind = e'.kind
  places : Option.Rel spans e.span? e'.span?

/-! ## Related runs -/

/-- Both give results with `P`, or both errors with `E`. -/
inductive Outcome.Agree {α : Type} (E : CompileError → CompileError → Prop) (P : α → α → Prop)
    (x y : Outcome α) : Prop where
  | ok {a b : α} : x.result = .ok a → y.result = .ok b → P a b → Agree E P x y
  | error {e e' : CompileError} : x.result = .error e → y.result = .error e' → E e e' → Agree E P x y

theorem Outcome.Agree.imp {α : Type} {E F : CompileError → CompileError → Prop} {P Q : α → α → Prop}
    {x y : Outcome α} (hxy : x.Agree E P y) (hE : ∀ e e', E e e' → F e e') (hP : ∀ a b, P a b → Q a b) :
    x.Agree F Q y := by
  cases hxy with
  | ok hx hy hab => exact .ok hx hy (hP _ _ hab)
  | error hx hy he => exact .error hx hy (hE _ _ he)

theorem Outcome.Agree.andThen {α β : Type} {E : CompileError → CompileError → Prop} {P : α → α → Prop}
    {Q : β → β → Prop} {x y : Outcome α} {f h : α → Outcome β} (hxy : x.Agree E P y)
    (hf : ∀ a b, P a b → (f a).Agree E Q (h b)) : (x.andThen f).Agree E Q (y.andThen h) := by
  unfold Outcome.andThen
  cases hxy with
  | ok hx hy hab =>
    rw [hx, hy]
    cases hf _ _ hab with
    | ok hfa hhb hab => exact .ok hfa hhb hab
    | error hfa hhb he => exact .error hfa hhb he
  | error hx hy he =>
    rw [hx, hy]
    exact .error rfl rfl he

section
variable {W σ α β : Type} [Preorder W]

/-- From states with `I`, both computations come to results with `P` and again to states with `I`, in a later
world, or both fail and the errors have `E`. -/
def SideBySide (E : CompileError → CompileError → Prop) (I : W → σ → σ → Prop) (w : W)
    (P : W → α → α → Prop) (x y : EStateM CompileError σ α) : Prop :=
  ∀ s t, I w s t → match x.run s, y.run t with
    | .ok a s', .ok b t' => ∃ w', w ≤ w' ∧ P w' a b ∧ I w' s' t'
    | .error e _, .error e' _ => E e e'
    | _, _ => False

namespace SideBySide

variable {E : CompileError → CompileError → Prop} {I : W → σ → σ → Prop} {w : W} {P : W → α → α →
  Prop} {Q : W → β → β → Prop}
  {x y : EStateM CompileError σ α} {f h : α → EStateM CompileError σ β}

theorem bind (hx : SideBySide E I w P x y)
    (hf : ∀ w', w ≤ w' → ∀ a b, P w' a b → SideBySide E I w' Q (f a) (h b)) :
    SideBySide E I w Q (x >>= f) (y >>= h) := by
  intro s t hst
  have hx := hx s t hst
  rw [EStateM.run_bind, EStateM.run_bind]
  cases hxs : x.run s <;> cases hyt : y.run t <;> rw [hxs, hyt] at hx
  case ok.ok a s' b t' =>
    obtain ⟨w', hw', hab, hst'⟩ := hx
    have hf := hf w' hw' a b hab s' t' hst'
    dsimp only
    cases hfs : (f a).run s' <;> cases hht : (h b).run t' <;> rw [hfs, hht] at hf
    · obtain ⟨w'', hw'', hend⟩ := hf
      exact ⟨w'', hw'.trans hw'', hend⟩
    · exact hf
    · exact hf
    · exact hf
  · exact hx.elim
  · exact hx.elim
  · exact hx

theorem ret {a b : α} (h : P w a b) : SideBySide E I w P (pure a) (pure b) := fun _ _ hst => ⟨w, le_rfl, h, hst⟩

theorem fail {e e' : CompileError} (h : E e e') : SideBySide E I w P (throw e) (throw e') := fun _ _ _ => h

theorem changeGet {k l : σ → α × σ}
    (h : ∀ s t, I w s t → ∃ w', w ≤ w' ∧ P w' (k s).1 (l t).1 ∧ I w' (k s).2 (l t).2) :
    SideBySide E I w P (modifyGet k) (modifyGet l) := h

theorem change {k l : σ → σ} {P : W → Unit → Unit → Prop} (hP : P w () ())
    (h : ∀ s t, I w s t → I w (k s) (l t)) :
    SideBySide E I w P (modify k) (modify l) := fun s t hst => ⟨w, le_rfl, hP, h s t hst⟩

theorem read {P : W → σ → σ → Prop} (h : ∀ s t, I w s t → P w s t) : SideBySide E I w P get get :=
  fun s t hst => ⟨w, le_rfl, h s t hst, hst⟩

theorem look {k l : σ → EStateM CompileError σ α} (h : ∀ s t, I w s t → SideBySide E I w P (k s) (l t)) :
    SideBySide E I w P (get >>= k) (get >>= l) := fun s t hst => h s t hst s t hst

/-- What becomes of runs from related states. -/
theorem outcome (hxy : SideBySide E I w P x y) (events : σ → List Event) {s t : σ} (hst : I w s t) :
    (Outcome.ofRun events x s).Agree E (fun a b => ∃ w', w ≤ w' ∧ P w' a b) (Outcome.ofRun events y t) := by
  have hxy := hxy s t hst
  unfold Outcome.ofRun
  cases hx : x.run s <;> cases hy : y.run t <;> rw [hx, hy] at hxy
  case ok.ok =>
    obtain ⟨w', hw', hab, -⟩ := hxy
    exact .ok rfl rfl ⟨w', hw', hab⟩
  case error.error => exact .error rfl rfl hxy
  all_goals exact hxy.elim

end SideBySide
end

section
variable {σ α β : Type}

def Alongside (E : CompileError → CompileError → Prop) (I : σ → σ → Prop) (P : α → α → Prop)
    (x y : EStateM CompileError σ α) :
    Prop := @SideBySide Unit σ α PUnit.instLinearOrder.toPreorder E (fun _ => I) () (fun _ => P) x y

namespace Alongside

variable {E : CompileError → CompileError → Prop} {I : σ → σ → Prop} {P : α → α → Prop}
  {Q : β → β → Prop}
  {x y : EStateM CompileError σ α} {f h : α → EStateM CompileError σ β}

theorem bind (hx : Alongside E I P x y) (hf : ∀ a b, P a b → Alongside E I Q (f a) (h b)) :
    Alongside E I Q (x >>= f) (y >>= h) := SideBySide.bind hx fun _ _ a b hab => hf a b hab

theorem ret {a b : α} (h : P a b) : Alongside E I P (pure a) (pure b) := SideBySide.ret h

theorem fail {e e' : CompileError} (h : E e e') : Alongside E I P (throw e) (throw e') := SideBySide.fail h

theorem read {P : σ → σ → Prop} (h : ∀ s t, I s t → P s t) : Alongside E I P get get := SideBySide.read h

theorem change {k l : σ → σ} {P : Unit → Unit → Prop} (hP : P () ()) (h : ∀ s t, I s t → I (k s) (l t)) :
    Alongside E I P (modify k) (modify l) := SideBySide.change hP h

theorem changeGet {k l : σ → α × σ} (h : ∀ s t, I s t → P (k s).1 (l t).1 ∧ I (k s).2 (l t).2) :
    Alongside E I P (modifyGet k) (modifyGet l) := SideBySide.changeGet fun s t hst => ⟨(), le_rfl, h s t hst⟩

theorem look {k l : σ → EStateM CompileError σ α} (h : ∀ s t, I s t → Alongside E I P (k s) (l t)) :
    Alongside E I P (get >>= k) (get >>= l) := SideBySide.look h

theorem outcome (hxy : Alongside E I P x y) (events : σ → List Event) {s t : σ} (hst : I s t) :
    (Outcome.ofRun events x s).Agree E P (Outcome.ofRun events y t) :=
  (SideBySide.outcome hxy events hst).imp (fun _ _ he => he) fun _ _ ⟨_, _, hab⟩ => hab

end Alongside
end
end Bies
