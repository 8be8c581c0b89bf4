import Bies.Outcome

/-!
# Runs of computations with a state

When a step of a computation succeeds, and what it leaves behind. `Gives x P` says that whatever `x`
returns, from any state, has the property `P`.
-/

namespace Bies

variable {ε σ α β : Type} {s s' : σ}

theorem bind_eq_ok {x : EStateM ε σ α} {f : α → EStateM ε σ β} {b : β} :
    (x >>= f).run s = .ok b s' ↔ ∃ a s₁, x.run s = .ok a s₁ ∧ (f a).run s₁ = .ok b s' := by
  rw [EStateM.run_bind]
  cases h : x.run s with
  | ok a s₁ =>
    constructor
    · intro hf; exact ⟨a, s₁, rfl, hf⟩
    · rintro ⟨_, _, ⟨⟩, hf⟩; exact hf
  | error e s₁ => simp

theorem pure_eq_ok {a b : α} : (pure a : EStateM ε σ α).run s = .ok b s' ↔ a = b ∧ s = s' := by
  simp

theorem get_eq_ok {a : σ} : (get : EStateM ε σ σ).run s = .ok a s' ↔ s = a ∧ s = s' := by
  simp

theorem modify_eq_ok {f : σ → σ} {u : Unit} :
    (modify f : EStateM ε σ Unit).run s = .ok u s' ↔ f s = s' := by
  have hrun : (modify f : EStateM ε σ Unit).run s = .ok () (f s) := rfl
  simp [hrun]

theorem modifyGet_eq_ok {f : σ → α × σ} {a : α} :
    (modifyGet f : EStateM ε σ α).run s = .ok a s' ↔ f s = (a, s') := by
  simp [Prod.ext_iff]

theorem throw_ne_ok {e : ε} {a : α} : (throw e : EStateM ε σ α).run s ≠ .ok a s' := by
  show EStateM.Result.error e s ≠ .ok a s'
  simp

theorem Outcome.ofRun_eq_ok {events : σ → List Event} {x : EStateM CompileError σ α} {a : α}
    (h : (Outcome.ofRun events x s).result = .ok a) : ∃ s', x.run s = .ok a s' := by
  unfold Outcome.ofRun at h
  split at h
  next b s' hrun =>
    obtain rfl := Except.ok.inj h
    exact ⟨s', hrun⟩
  next => cases h

def Gives (x : EStateM ε σ α) (P : α → Prop) : Prop := ∀ s a s', x.run s = .ok a s' → P a

namespace Gives

variable {x : EStateM ε σ α} {f : α → EStateM ε σ β} {P : α → Prop} {Q : β → Prop}

theorem bind (hx : Gives x P) (hf : ∀ a, P a → Gives (f a) Q) : Gives (x >>= f) Q := by
  intro s b s' h
  obtain ⟨a, s₁, h₁, h₂⟩ := bind_eq_ok.mp h
  exact hf a (hx _ _ _ h₁) _ _ _ h₂

theorem bind_any (hf : ∀ a, Gives (f a) Q) : Gives (x >>= f) Q := by
  intro s b s' h
  obtain ⟨a, s₁, _, h₂⟩ := bind_eq_ok.mp h
  exact hf a _ _ _ h₂

theorem ret {a : α} (h : P a) : Gives (Pure.pure a : EStateM ε σ α) P := by
  intro s b s' hb
  obtain ⟨rfl, _⟩ := pure_eq_ok.mp hb
  exact h

theorem fail (e : ε) : Gives (throw e : EStateM ε σ α) P := fun _ _ _ h => absurd h throw_ne_ok

end Gives

/-- From a state with `I`, `x` comes to one with `I` and a result with `P`, or it fails with an error that has `E`. -/
def Ends (I : σ → Prop) (x : EStateM ε σ α) (P : α → Prop) (E : ε → Prop) : Prop :=
  ∀ s, I s → match x.run s with
    | .ok a s' => P a ∧ I s'
    | .error e _ => E e

namespace Ends

variable {I : σ → Prop} {x : EStateM ε σ α} {f : α → EStateM ε σ β} {P : α → Prop}
  {Q : β → Prop} {E : ε → Prop}

theorem bind (hx : Ends I x P E) (hf : ∀ a, P a → Ends I (f a) Q E) : Ends I (x >>= f) Q E := by
  intro s hs
  have hx := hx s hs
  rw [EStateM.run_bind]
  cases h : x.run s with
  | ok a s₁ =>
    rw [h] at hx
    exact hf a hx.1 s₁ hx.2
  | error e s₁ =>
    rw [h] at hx
    exact hx

theorem ret {a : α} (h : P a) : Ends I (Pure.pure a) P E := fun _ hs => ⟨h, hs⟩

theorem fail {e : ε} (h : E e) : Ends I (throw e) P E := fun _ _ => h

theorem read : Ends I (get : EStateM ε σ σ) (fun _ => True) E := fun _ hs => ⟨trivial, hs⟩

theorem change {g : σ → σ} (h : ∀ s, I s → I (g s)) : Ends I (modify g) (fun _ => True) E :=
  fun s hs => ⟨trivial, h s hs⟩

theorem changeGet {g : σ → α × σ} (h : ∀ s, I s → P (g s).1 ∧ I (g s).2) : Ends I (modifyGet g) P E :=
  fun s hs => h s hs

theorem imp {P' : α → Prop} {E' : ε → Prop} (hx : Ends I x P E) (hP : ∀ a, P a → P' a)
    (hE : ∀ e, E e → E' e) : Ends I x P' E' := by
  intro s hs
  have hx := hx s hs
  cases h : x.run s with
  | ok a s₁ =>
    rw [h] at hx
    exact ⟨hP a hx.1, hx.2⟩
  | error e s₁ =>
    rw [h] at hx
    exact hE e hx

end Ends
end Bies
