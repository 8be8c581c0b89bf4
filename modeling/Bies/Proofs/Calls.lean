import Bies.Assembly
import Bies.Proofs.Machine

/-!
# The machine with calls

A stack machine for the code of several functions. Every call has a frame of its own, with a link to a
frame of the function around its function, and a stack of its own. A slot remembers which instruction
stored its value.
-/

namespace Bies

inductive Value (V : Type) where
  | function (f : FunctionId)
  | data (v : V)
deriving DecidableEq

structure Slot (V : Type) where
  value : Value V
  /-- The instruction that stored the value, by its function and its position. -/
  writer : Option (FunctionId × Nat)

structure Activation (V : Type) where
  function : FunctionId
  /-- The frame one link up. -/
  link : Option Nat
  slots : Nat → Slot V

def Activation.store {V : Type} (a : Activation V) (slot : Nat) (s : Slot V) : Activation V :=
  { a with slots := fun k => if k = slot then s else a.slots k }

theorem Activation.slots_store {V : Type} (a : Activation V) (slot : Nat) (s : Slot V) (k : Nat) :
    (a.store slot s).slots k = if k = slot then s else a.slots k := rfl

structure Call (V : Type) where
  frame : Nat
  pc : Nat
  stack : List (Value V)

/-- Which frame of the function `parent` is linked to when a call is made from the frame `caller`. The frames are
given with their functions and links. -/
abbrev Linking := (frames : List (FunctionId × Option Nat)) → (caller : Nat) → (parent : FunctionId) → Option Nat

def Linking.latest : Linking := fun frames _ parent =>
  (List.range frames.length).reverse.find? fun k => (frames[k]?.map (·.1)) = some parent

def FunctionCode.find? (functions : List FunctionCode) (f : FunctionId) : Option FunctionCode :=
  functions.find? (·.id = f)

structure Process (V : Type) where
  frames : List (Activation V)
  /-- The innermost comes first. -/
  calls : List (Call V)
  out : List (Value V)

namespace Process

variable {V : Type} (A : Arithmetic V) (link : Linking) (functions : List FunctionCode)

def up? (frames : List (Activation V)) : (n k : Nat) → Option Nat
  | 0, k => some k
  | n + 1, k => (frames[k]?.bind (·.link)).bind (up? frames n)

def slot? (p : Process V) (frame n slot : Nat) : Option (Slot V) :=
  (up? p.frames n frame).bind fun k => p.frames[k]?.map (·.slots slot)

def skeleton (p : Process V) : List (FunctionId × Option Nat) := p.frames.map fun a => (a.function, a.link)

def proceed (p : Process V) (call : Call V) (rest : List (Call V)) (stack : List (Value V)) : Process V :=
  { p with calls := ⟨call.frame, call.pc + 1, stack⟩ :: rest }

def leave (p : Process V) (v : Value V) : (rest : List (Call V)) → Option (Process V)
  | [] => none
  | caller :: rest => some { p with calls := { caller with stack := v :: caller.stack } :: rest }

def unsetSlot : Slot V := ⟨.data A.unset, none⟩

def arguments (args : List (Value V)) : Nat → Slot V := fun k => (args[k]?.map (⟨·, none⟩)).getD (unsetSlot A)

def enter? (p : Process V) (call : Call V) (rest : List (Call V)) (n : Nat) (f : FunctionId)
    (stack : List (Value V)) : Option (Process V) :=
  if n ≤ stack.length then
    (FunctionCode.find? functions f).map fun callee =>
      let frame := ⟨f, link p.skeleton call.frame callee.parent, arguments A (stack.take n).reverse⟩
      { p with
        frames := p.frames ++ [frame]
        calls := ⟨p.frames.length, 0, []⟩ :: ⟨call.frame, call.pc + 1, stack.drop n⟩ :: rest }
  else none

def exec? (p : Process V) (call : Call V) (rest : List (Call V)) (f : FunctionId) (i : Instruction) :
    Option (Process V) :=
  match i, call.stack with
  | .ldv x, stack => x.number?.map fun n => p.proceed call rest (.data (A.ofNumber n) :: stack)
  | .ldf g, stack => some (p.proceed call rest (.function g :: stack))
  | .bld n slot, stack => (p.slot? call.frame n slot).map fun s => p.proceed call rest (s.value :: stack)
  | .bst 0 slot, v :: stack =>
    some { p.proceed call rest stack with
      frames := p.frames.modify call.frame (·.store slot ⟨v, some (f, call.pc)⟩) }
  | .app n, .function g :: stack => p.enter? A link functions call rest n g stack
  | .ret, v :: _ => p.leave v rest
  | .prn, v :: stack => some { p.proceed call rest stack with out := p.out ++ [v] }
  | i, .data left :: .data right :: stack =>
    i.operator?.map fun op => p.proceed call rest (.data (A.apply op left right) :: stack)
  | _, _ => none

def position? (p : Process V) : Option (FunctionId × Nat) :=
  p.calls.head?.bind fun call => p.frames[call.frame]?.map fun frame => (frame.function, call.pc)

def next? (p : Process V) : Option Instruction :=
  p.position?.bind fun at' => (FunctionCode.find? functions at'.1).bind fun f => f.code[at'.2]?

/-- One step. A call that comes to the end of its code returns what is on top of its stack. -/
def step? (p : Process V) : Option (Process V) :=
  match p.calls with
  | [] => none
  | call :: rest =>
    p.frames[call.frame]?.bind fun frame => (FunctionCode.find? functions frame.function).bind fun f =>
      match f.code[call.pc]? with
      | some i => p.exec? A link functions call rest frame.function i
      | none => p.leave (call.stack.headD (.data A.unset)) rest

def start : Process V := ⟨[⟨0, none, fun _ => unsetSlot A⟩], [⟨0, 0, []⟩], []⟩

/-- From here the process comes to an `HLT` and has printed `out` by then. Before every step on the way `Q` holds. -/
inductive Halts (Q : Process V → Prop) : Process V → List (Value V) → Prop
  | hlt {p : Process V} (h : p.next? functions = some .hlt) : Halts Q p p.out
  | step {p p' : Process V} {out : List (Value V)} (hQ : Q p) (h : p.step? A link functions = some p')
      (hrest : Halts Q p' out) : Halts Q p out

def haltsWithin? (q : Process V → Bool) : Nat → Process V → Option (List (Value V))
  | 0, _ => none
  | steps + 1, p =>
    match p.next? functions with
    | some .hlt => some p.out
    | _ => if q p then (p.step? A link functions).bind (haltsWithin? q steps) else none

variable {functions}

structure Innermost (functions : List FunctionCode) (p : Process V) (call : Call V) (rest : List (Call V))
    (frame : Activation V) (f : FunctionCode) : Prop where
  calls : p.calls = call :: rest
  frames : p.frames[call.frame]? = some frame
  function : FunctionCode.find? functions frame.function = some f

section
variable {p : Process V} {call : Call V} {rest : List (Call V)} {frame : Activation V} {f : FunctionCode}

theorem Innermost.step? (h : Innermost functions p call rest frame f) : p.step? A link functions =
    match f.code[call.pc]? with
    | some i => p.exec? A link functions call rest frame.function i
    | none => p.leave (call.stack.headD (.data A.unset)) rest := by
  unfold Process.step?
  simp only [h.calls, h.frames, h.function, Option.bind_some]

theorem Innermost.next? (h : Innermost functions p call rest frame f) : p.next? functions = f.code[call.pc]? := by
  unfold Process.next? position?
  simp only [h.calls, List.head?_cons, h.frames, Option.bind_some, Option.map_some, h.function]

theorem exists_innermost (h : p.next? functions ≠ none ∨ p.step? A link functions ≠ none) :
    ∃ call rest frame f, Innermost functions p call rest frame f := by
  unfold next? position? step? at h
  cases hcalls : p.calls with
  | nil => simp [hcalls] at h
  | cons call rest =>
    cases hframe : p.frames[call.frame]? with
    | none => simp [hcalls, hframe] at h
    | some frame =>
      cases hf : FunctionCode.find? functions frame.function with
      | none => simp [hcalls, hframe, hf] at h
      | some f => exact ⟨call, rest, frame, f, hcalls, hframe, hf⟩

end

variable {A link}

section
variable {p : Process V} {Q Q' : Process V → Prop}

theorem exec?_operator {call : Call V} {rest : List (Call V)} {f : FunctionId} {i : Instruction}
    {op : String} {left right : V} {stack : List (Value V)} (hop : i.operator? = some op)
    (hstack : call.stack = .data left :: .data right :: stack) :
    p.exec? A link functions call rest f i = some (p.proceed call rest (.data (A.apply op left right) :: stack)) := by
  cases i <;> simp only [Instruction.operator?, Option.some.injEq, reduceCtorEq] at hop <;> subst hop <;>
    simp [exec?, hstack, Instruction.operator?]

theorem halts_of_haltsWithin? {q : Process V → Bool} : ∀ {steps : Nat} {p : Process V} {out : List (Value V)},
    haltsWithin? A link functions q steps p = some out → Halts A link functions (q · = true) p out
  | steps + 1, p, out, h => by
    unfold haltsWithin? at h
    split at h
    next hhlt =>
      obtain rfl := Option.some.inj h
      exact .hlt hhlt
    next =>
      obtain ⟨hq, h⟩ := Option.ite_none_right_eq_some.mp h
      obtain ⟨p', hstep, hrest⟩ := Option.bind_eq_some_iff.mp h
      exact .step hq hstep (halts_of_haltsWithin? hrest)

theorem Halts.imp (hQ : ∀ p, Q p → Q' p) {out : List (Value V)}
    (h : Halts A link functions Q p out) : Halts A link functions Q' p out := by
  induction h with
  | hlt hhlt => exact .hlt hhlt
  | step hq hstep _ ih => exact .step (hQ _ hq) hstep ih

theorem step?_of_hlt (h : p.next? functions = some .hlt) : p.step? A link functions = none := by
  obtain ⟨call, rest, frame, f, hat⟩ := exists_innermost A link (.inl (by rw [h]; nofun))
  rw [hat.next?] at h
  rw [hat.step?, h]
  dsimp only
  unfold exec?
  split <;> first | rfl | contradiction

theorem Halts.unique {out out' : List (Value V)}
    (h : Halts A link functions Q p out) (h' : Halts A link functions Q' p out') : out = out' := by
  induction h with
  | hlt hhlt =>
    cases h' with
    | hlt => rfl
    | step _ hstep _ =>
      rw [step?_of_hlt hhlt] at hstep
      cases hstep
  | step _ hstep _ ih =>
    cases h' with
    | hlt hhlt =>
      rw [step?_of_hlt hhlt] at hstep
      cases hstep
    | step _ hstep' hrest' =>
      obtain rfl := Option.some.inj (hstep.symm.trans hstep')
      exact ih hrest'

end

end Process
end Bies
