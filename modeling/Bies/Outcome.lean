import Bies.CompileError
import Bies.Event

/-!
# Outcomes

What a stage of the compilation gives, together with what it told on the way. A stage that fails has
told what happened before.
-/

namespace Bies

structure Outcome (α : Type) where
  result : Except CompileError α
  events : List Event

namespace Outcome

/-- A stage that tells nothing. -/
def silent {α : Type} (result : Except CompileError α) : Outcome α := ⟨result, []⟩

/-- What a computation that keeps its events in its state gives and tells. -/
def ofRun {α σ : Type} (events : σ → List Event) (x : EStateM CompileError σ α) (s : σ) : Outcome α :=
  match x.run s with
  | .ok a s => ⟨.ok a, events s⟩
  | .error e s => ⟨.error e, events s⟩

/-- The next stage works on what this one gives. -/
def andThen {α β : Type} (x : Outcome α) (next : α → Outcome β) : Outcome β :=
  match x.result with
  | .ok a => ⟨(next a).result, x.events ++ (next a).events⟩
  | .error e => ⟨.error e, x.events⟩

end Outcome
end Bies
