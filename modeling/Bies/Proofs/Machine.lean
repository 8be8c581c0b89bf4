import Bies.Frame
import Bies.Proofs.Code
import Bies.Proofs.Evaluation
import Mathlib.Logic.Relation

/-!
# The machine

A stack machine for the code of one function that calls no other. `Pushes` says that code leaves a
value on the stack, `Runs` that it does what a statement does: the slots of a frame hold the variables,
and the machine comes to the end of the code wherever that stands.
-/

namespace Bies

def Instruction.operator? : Instruction → Option String
  | .add => some "+"
  | .sub => some "-"
  | .mul => some "*"
  | .div => some "/"
  | .pow => some "**"
  | .eq => some "=="
  | .gt => some ">"
  | .gte => some ">="
  | .lt => some "<"
  | .lte => some "<="
  | _ => none

def Literal.number? : Literal → Option Number
  | .int n => some (.int n)
  | .float x => some (.float x)
  | _ => none

structure Machine (V : Type) where
  pc : Nat
  stack : List V
  slots : Nat → V
  out : List V

namespace Machine

variable {V : Type} (A : Arithmetic V)

def exec? (m : Machine V) (i : Instruction) : Option (Machine V) :=
  match i, m.stack with
  | .ldv x, stack => x.number?.map fun n => { m with pc := m.pc + 1, stack := A.ofNumber n :: stack }
  | .bld 0 slot, stack => some { m with pc := m.pc + 1, stack := m.slots slot :: stack }
  | .bst 0 slot, v :: stack =>
    some { m with pc := m.pc + 1, stack, slots := fun k => if k = slot then v else m.slots k }
  | .bf offset, v :: stack =>
    some { m with pc := if A.isFalse v then ((m.pc : Int) + offset).toNat else m.pc + 1, stack }
  | .br offset, _ => some { m with pc := ((m.pc : Int) + offset).toNat }
  | .prn, v :: stack => some { m with pc := m.pc + 1, stack, out := m.out ++ [v] }
  | i, left :: right :: stack =>
    i.operator?.map fun op => { m with pc := m.pc + 1, stack := A.apply op left right :: stack }
  | _, _ => none

def step? (code : Code) (m : Machine V) : Option (Machine V) := code[m.pc]?.bind (m.exec? A)

def Reaches (code : Code) : Machine V → Machine V → Prop :=
  Relation.ReflTransGen fun m m' => m.step? A code = some m'

def start : Machine V := ⟨0, [], fun _ => A.unset, []⟩

def after? (code : Code) : Nat → Machine V → Option (Machine V)
  | 0, m => some m
  | n + 1, m => (m.step? A code).bind (after? code n)

variable {A} {code : Code} {m m' : Machine V}

theorem Reaches.step {i : Instruction} (hi : code[m.pc]? = some i) (h : m.exec? A i = some m') :
    Reaches A code m m' := by
  refine .single ?_
  rw [step?, hi]
  exact h

theorem reaches_of_after? : ∀ {n : Nat} {m : Machine V}, after? A code n m = some m' → Reaches A code m m'
  | 0, m, h => by
    obtain rfl := Option.some.inj h
    exact .refl
  | n + 1, m, h => by
    obtain ⟨m₁, hstep, hrest⟩ := Option.bind_eq_some_iff.mp h
    exact .head hstep (reaches_of_after? hrest)

variable (A) in
def Halts (code : Code) (out : List V) : Prop :=
  ∃ m, Reaches A code (start A) m ∧ code[m.pc]? = some .hlt ∧ m.out = out

variable (A) in
/-- After `steps` steps the machine is at the `HLT` of the code and has printed `out`. -/
def haltsAfter [DecidableEq V] (code : Code) (steps : Nat) (out : List V) : Bool :=
  (after? A code steps (start A)).any fun m => (code[m.pc]? matches some .hlt) && m.out = out

theorem halts_of_haltsAfter [DecidableEq V] {steps : Nat} {out : List V} (h : haltsAfter A code steps out = true) :
    Halts A code out := by
  obtain ⟨m, hm, hend⟩ := (Option.any_eq_true _ _).mp h
  simp only [Bool.and_eq_true, decide_eq_true_eq] at hend
  refine ⟨m, reaches_of_after? hm, ?_, hend.2⟩
  have hhlt := hend.1
  split at hhlt
  next heq => exact heq
  next => cases hhlt

theorem step?_of_hlt (h : code[m.pc]? = some .hlt) : m.step? A code = none := by
  rw [step?, h]
  match hstack : m.stack with
  | [] | [_] | _ :: _ :: _ => simp [exec?, hstack, Instruction.operator?]

theorem eq_of_reaches_of_hlt (h : code[m.pc]? = some .hlt) (hreach : Reaches A code m m') : m = m' := by
  rcases hreach.cases_head with rfl | ⟨_, hstep, _⟩
  · rfl
  · rw [step?_of_hlt h] at hstep
    cases hstep

theorem Halts.unique {out out' : List V} (h : Halts A code out) (h' : Halts A code out') : out = out' := by
  obtain ⟨m, hreach, hhlt, rfl⟩ := h
  obtain ⟨m', hreach', hhlt', rfl⟩ := h'
  have hdet : Relator.RightUnique fun m m' : Machine V => m.step? A code = some m' :=
    fun _ _ _ h h' => Option.some.inj (h.symm.trans h')
  rcases hreach.total_of_right_unique hdet hreach' with hr | hr
  · rw [eq_of_reaches_of_hlt hhlt hr]
  · rw [eq_of_reaches_of_hlt hhlt' hr]

end Machine

/-! ## Slots for variables -/

namespace Frame

def Extends (F F' : Frame) : Prop := ∃ more, F'.map (·.name) = F.map (·.name) ++ more

theorem Extends.refl (F : Frame) : F.Extends F := ⟨[], by simp⟩

theorem Extends.trans {F F' F'' : Frame} (h : F.Extends F') (h' : F'.Extends F'') : F.Extends F'' := by
  obtain ⟨more, hm⟩ := h
  obtain ⟨more', hm'⟩ := h'
  exact ⟨more ++ more', by rw [hm', hm, List.append_assoc]⟩

theorem slot?_eq (F : Frame) (name : String) : F.slot? name = (F.map (·.name)).findIdx? (· = name) := by
  unfold slot?
  rw [List.findIdx?_map]
  rfl

theorem Extends.slot? {F F' : Frame} (h : F.Extends F') {name : String} {k : Nat} (hk : F'.slot? name = some k) :
    F.slot? name = some k ∨ (F.slot? name = none ∧ F.length ≤ k) := by
  obtain ⟨more, hm⟩ := h
  rw [slot?_eq, hm, List.findIdx?_append, ← slot?_eq] at hk
  cases hF : F.slot? name with
  | some k' =>
    rw [hF] at hk
    exact Or.inl hk
  | none =>
    rw [hF, Option.none_or] at hk
    obtain ⟨j, _, rfl⟩ := Option.map_eq_some_iff.mp hk
    exact Or.inr ⟨rfl, by simp⟩

theorem Extends.slot?_none {F F' : Frame} (h : F.Extends F') {name : String} (hk : F'.slot? name = none) :
    F.slot? name = none := by
  obtain ⟨more, hm⟩ := h
  rw [slot?_eq, hm, List.findIdx?_append, ← slot?_eq] at hk
  exact (Option.or_eq_none_iff.mp hk).1

theorem Extends.length_le {F F' : Frame} (h : F.Extends F') : F.length ≤ F'.length := by
  obtain ⟨more, hm⟩ := h
  have := congrArg List.length hm
  simp at this
  omega

theorem names_bind (F : Frame) (name : String) (value : Option Node) : (F.bind name value).2.map (·.name) =
    if (F.slot? name).isSome then F.map (·.name) else F.map (·.name) ++ [name] := by
  unfold bind
  cases F.slot? name with
  | none => simp
  | some slot =>
    apply List.ext_getElem?
    intro k
    simp only [Option.isSome_some, if_true, List.getElem?_map, List.getElem?_modify]
    cases F[k]? with
    | none => rfl
    | some b => by_cases h : slot = k <;> simp [h]

theorem bind_extends (F : Frame) (name : String) (value : Option Node) : F.Extends (F.bind name value).2 := by
  unfold Extends
  rw [names_bind]
  split
  · exact ⟨[], by simp⟩
  · exact ⟨[name], rfl⟩

theorem slot?_bind (F : Frame) (name : String) (value : Option Node) :
    (F.bind name value).2.slot? name = some (F.bind name value).1 := by
  rw [slot?_eq, names_bind]
  unfold bind
  cases hslot : F.slot? name with
  | some slot =>
    rw [slot?_eq] at hslot
    exact hslot
  | none =>
    rw [slot?_eq] at hslot
    simp [hslot, List.findIdx?_append]

theorem slot?_bind_ne (F : Frame) {name other : String} (value : Option Node) (h : other ≠ name) :
    (F.bind name value).2.slot? other = F.slot? other := by
  rw [slot?_eq, names_bind, slot?_eq F other]
  split
  · rfl
  · rw [List.findIdx?_append]
    simp [h.symm]

theorem value?_bind (F : Frame) (name : String) (value : Option Node) :
    (F.bind name value).2.value? (F.bind name value).1 = value := by
  unfold bind value?
  cases hslot : F.slot? name with
  | some slot =>
    have hlt : slot < F.length := (List.findIdx?_eq_some_iff_getElem.mp hslot).1
    simp [hlt]
  | none => simp

theorem value?_bind_ne (F : Frame) {name : String} (value : Option Node) {slot : Nat} (hlt : slot < F.length)
    (h : F.slot? name ≠ some slot) : (F.bind name value).2.value? slot = F.value? slot := by
  unfold bind value?
  cases hslot : F.slot? name with
  | some slot' =>
    have hne : slot' ≠ slot := fun heq => h (heq ▸ hslot)
    simp [hne]
  | none => simp [List.getElem?_append_left hlt]

def Values (P : Node → Prop) (F : Frame) : Prop := ∀ b ∈ F, ∀ n, b.value = some n → P n

theorem Values.bind {P : Node → Prop} {F : Frame} (h : F.Values P) (name : String) {value : Option Node}
    (hv : ∀ n, value = some n → P n) : (F.bind name value).2.Values P := by
  unfold Frame.bind
  split
  next slot _ =>
    intro b hb n hn
    obtain ⟨k, hk⟩ := List.getElem?_of_mem hb
    rw [List.getElem?_modify] at hk
    obtain ⟨b₀, hb₀, rfl⟩ := Option.map_eq_some_iff.mp hk
    split at hn
    · exact hv n hn
    · exact h b₀ (List.mem_of_getElem? hb₀) n hn
  next =>
    intro b hb n hn
    rcases List.mem_append.mp hb with hb | hb
    · exact h b hb n hn
    · obtain rfl := List.mem_singleton.mp hb
      exact hv n hn

theorem Values.value? {P : Node → Prop} {F : Frame} (h : F.Values P) {slot : Nat} {n : Node}
    (hn : F.value? slot = some n) : P n := by
  obtain ⟨b, hb, hv⟩ := Option.bind_eq_some_iff.mp hn
  exact h b (List.mem_of_getElem? hb) n hv

structure Holds {V : Type} (A : Arithmetic V) (F : Frame) (slots : Nat → V) (env : String → V) : Prop where
  bound : ∀ {name k}, F.slot? name = some k → slots k = env name
  unbound : ∀ {name}, F.slot? name = none → env name = A.unset
  beyond : ∀ {k}, F.length ≤ k → slots k = A.unset

section
variable {V : Type} {A : Arithmetic V} {F F' : Frame} {slots : Nat → V} {env : String → V}

theorem Holds.mono (h : Holds A F slots env) (hF : F.Extends F') : Holds A F' slots env where
  bound := by
    intro name k hk
    rcases hF.slot? hk with hk | ⟨hnone, hle⟩
    · exact h.bound hk
    · rw [h.unbound hnone, h.beyond hle]
  unbound := fun hnone => h.unbound (hF.slot?_none hnone)
  beyond := fun hle => h.beyond (Nat.le_trans hF.length_le hle)

theorem slot?_inj {name name' : String} {k : Nat} (h : F.slot? name = some k) (h' : F.slot? name' = some k) :
    name = name' := by
  obtain ⟨hlt, hname, _⟩ := List.findIdx?_eq_some_iff_getElem.mp h
  obtain ⟨_, hname', _⟩ := List.findIdx?_eq_some_iff_getElem.mp h'
  exact (of_decide_eq_true hname).symm.trans (of_decide_eq_true hname')

theorem Holds.set (h : Holds A F slots env) {name : String} {slot : Nat} (hslot : F.slot? name = some slot) (v : V) :
    Holds A F (fun k => if k = slot then v else slots k) (fun n => if n = name then v else env n) where
  bound := by
    intro name' k hk
    by_cases heq : name' = name
    · subst heq
      obtain rfl : slot = k := by simpa [hslot] using hk
      simp
    · have : k ≠ slot := fun hks => heq (slot?_inj hk (hks ▸ hslot))
      simp [heq, this, h.bound hk]
  unbound := by
    intro name' hnone
    have : name' ≠ name := by rintro rfl; rw [hslot] at hnone; cases hnone
    simp [this, h.unbound hnone]
  beyond := by
    intro k hle
    have hlt : slot < F.length := (List.findIdx?_eq_some_iff_getElem.mp hslot).1
    have : k ≠ slot := by omega
    simp [this, h.beyond hle]

theorem holds_initial (A : Arithmetic V) : Holds A [] (fun _ => A.unset) (fun _ => A.unset) where
  bound := fun hk => by cases hk
  unbound := fun _ => rfl
  beyond := fun _ => rfl

end

end Frame

/-! ## What code does -/

def Code.NoRet (code : Code) : Prop := ∀ i ∈ code, i.isRet = false

theorem Code.NoRet.append {a b : Code} (ha : a.NoRet) (hb : b.NoRet) : Code.NoRet (a ++ b) := by
  intro i hi
  rcases List.mem_append.mp hi with hi | hi
  · exact ha i hi
  · exact hb i hi

theorem Code.NoRet.endsInRet {code : Code} (h : code.NoRet) : code.endsInRet = false := by
  unfold Code.endsInRet
  cases hlast : code.getLast? with
  | none => rfl
  | some i => exact h i (List.mem_of_getLast? hlast)

open Machine

section
variable {V : Type} (A : Arithmetic V)

/-- The code computes a value from the variables and leaves it on the stack. It was made with the names of
`F` and brought them to those of `F'`. -/
structure Pushes (F F' : Frame) (code : Code) (value : (String → V) → V) : Prop where
  grows : F.Extends F'
  noRet : code.NoRet
  run : ∀ {full : Code} {base : Nat} (stack out : List V) {slots : Nat → V} {env : String → V},
    full.At base code → F.Holds A slots env →
    Reaches A full ⟨base, stack, slots, out⟩ ⟨base + code.length, value env :: stack, slots, out⟩

structure Runs (F F' : Frame) (code : Code) (act : Store V → Store V) : Prop where
  grows : F.Extends F'
  noRet : code.NoRet
  run : ∀ {full : Code} {base : Nat} (stack out : List V) {slots : Nat → V} {env : String → V},
    full.At base code → F.Holds A slots env → ∃ stack' slots',
      Reaches A full ⟨base, stack, slots, out⟩ ⟨base + code.length, stack', slots', (act ⟨env, out⟩).out⟩ ∧
      F'.Holds A slots' (act ⟨env, out⟩).env

end

section
variable {V : Type} {A : Arithmetic V} {F F₁ F₂ F₃ : Frame} {a b : Code} {v w : (String → V) → V}
  {f g : Store V → Store V}

theorem pushes_literal {x : Literal} {n : Number} (hx : x.number? = some n) :
    Pushes A F F [.ldv x] fun _ => A.ofNumber n where
  grows := .refl F
  noRet := by simp [Code.NoRet, Instruction.isRet]
  run := fun _ _ _ _ hat _ => .step hat.head (by simp [exec?, hx])

theorem pushes_variable {name : String} {slot : Nat} (hF : F.Extends F₁) (hslot : F₁.slot? name = some slot) :
    Pushes A F F₁ [.bld 0 slot] fun env => env name where
  grows := hF
  noRet := by simp [Code.NoRet, Instruction.isRet]
  run := fun _ _ _ _ hat hholds => .step hat.head (by simp [exec?, (hholds.mono hF).bound hslot])

theorem exec?_operator {m : Machine V} {i : Instruction} {op : String} {left right : V} {stack : List V}
    (hop : i.operator? = some op) (hstack : m.stack = left :: right :: stack) :
    m.exec? A i = some { m with pc := m.pc + 1, stack := A.apply op left right :: stack } := by
  cases i <;> simp only [Instruction.operator?, Option.some.injEq, reduceCtorEq] at hop <;> subst hop <;>
    simp [exec?, hstack, Instruction.operator?]

theorem Pushes.apply {i : Instruction} {op : String} (hw : Pushes A F F₁ b w) (hv : Pushes A F₁ F₂ a v)
    (hop : i.operator? = some op) : Pushes A F F₂ (b ++ a ++ [i]) fun env => A.apply op (v env) (w env) where
  grows := hw.grows.trans hv.grows
  noRet := by
    refine (hw.noRet.append hv.noRet).append fun j hj => ?_
    obtain rfl := List.mem_singleton.mp hj
    cases j <;> simp [Instruction.operator?] at hop <;> rfl
  run := by
    intro full base stack out slots env hat hholds
    -- the right operand goes first, so the left one ends up on top
    have hright := hw.run stack out hat.left.left hholds
    have hleft := hv.run (w env :: stack) out hat.left.right (hholds.mono hw.grows)
    refine (hright.trans hleft).trans (Reaches.step (i := i) ?_ ?_)
    rotate_left
    · rw [exec?_operator hop rfl]
      simp [Nat.add_assoc]
    have := hat.right.head
    rwa [List.length_append, ← Nat.add_assoc] at this

theorem runs_nil : Runs A F F [] fun σ => σ where
  grows := .refl F
  noRet := by simp [Code.NoRet]
  run := fun {_ _} stack _ {slots _} _ hholds => ⟨stack, slots, .refl, hholds⟩

theorem Runs.seq (hf : Runs A F F₁ a f) (hg : Runs A F₁ F₂ b g) : Runs A F F₂ (a ++ b) fun σ => g (f σ) where
  grows := hf.grows.trans hg.grows
  noRet := hf.noRet.append hg.noRet
  run := by
    intro full base stack out slots env hat hholds
    obtain ⟨stack₁, slots₁, hreach₁, hholds₁⟩ := hf.run stack out hat.left hholds
    obtain ⟨stack₂, slots₂, hreach₂, hholds₂⟩ := hg.run stack₁ (f ⟨env, out⟩).out hat.right hholds₁
    refine ⟨stack₂, slots₂, ?_, hholds₂⟩
    rw [List.length_append, ← Nat.add_assoc]
    exact hreach₁.trans hreach₂

theorem Pushes.discard (hv : Pushes A F F₁ a v) : Runs A F F₁ a fun σ => σ where
  grows := hv.grows
  noRet := hv.noRet
  run := fun stack out _ _ hat hholds => ⟨_, _, hv.run stack out hat hholds, hholds.mono hv.grows⟩

theorem Pushes.print (hv : Pushes A F F₁ a v) : Runs A F F₁ (a ++ [.prn]) fun σ => σ.print (v σ.env) where
  grows := hv.grows
  noRet := hv.noRet.append (by simp [Code.NoRet, Instruction.isRet])
  run := by
    intro full base stack out slots env hat hholds
    have hvalue := hv.run stack out hat.left hholds
    refine ⟨stack, slots, hvalue.trans (Reaches.step hat.right.head ?_), hholds.mono hv.grows⟩
    simp [exec?, Store.print, Nat.add_assoc]

theorem Pushes.store (hv : Pushes A F F₁ a v) (name : String) (value : Option Node) :
    Runs A F (F₁.bind name value).2 (a ++ [.bst 0 (F₁.bind name value).1]) fun σ => σ.set name (v σ.env) where
  grows := hv.grows.trans (F₁.bind_extends name value)
  noRet := hv.noRet.append (by simp [Code.NoRet, Instruction.isRet])
  run := by
    intro full base stack out slots env hat hholds
    have hholds' := (hholds.mono hv.grows).mono (F₁.bind_extends name value)
    refine ⟨stack, _, (hv.run stack out hat.left hholds).trans (Reaches.step hat.right.head ?_),
      hholds'.set (F₁.slot?_bind name value) (v env)⟩
    simp [exec?, Store.set, Nat.add_assoc]

open Lowering

theorem reaches_leave (A : Arithmetic V) {full : Code} {p : Nat} {rest : Chain} (stack out : List V)
    (slots : Nat → V) (hb : b.NoRet) (hat : full.At p (Chain.leave b rest rest.layout.length)) :
    Reaches A full ⟨p, stack, slots, out⟩
      ⟨p + (Chain.leave b rest rest.layout.length).length + rest.layout.length, stack, slots, out⟩ := by
  cases rest with
  | done => exact .refl
  | _ =>
    simp only [Chain.leave, Chain.isDone, hb.endsInRet, Bool.or_self, Bool.false_eq_true, ite_false] at hat ⊢
    refine Reaches.step hat.head ?_
    simp [exec?]
    omega

theorem noRet_leave {body : Code} {rest : Chain} {n : Nat} : (Chain.leave body rest n).NoRet := by
  unfold Chain.leave
  split <;> simp [Code.NoRet, Instruction.isRet]

theorem Pushes.branch (hv : Pushes A F F₁ a v) (hf : Runs A F₁ F₂ b f) (rest : Chain)
    (hg : Runs A F₂ F₃ rest.layout g) : Runs A F F₃ (Chain.branch a b rest).layout
      fun σ => if A.isFalse (v σ.env) then g σ else f σ where
  grows := hv.grows.trans (hf.grows.trans hg.grows)
  noRet := by
    refine hv.noRet.append (Code.NoRet.append (a := [_]) ?_ ((hf.noRet.append noRet_leave).append hg.noRet))
    simp [Code.NoRet, Instruction.isRet]
  run := by
    intro full base stack out slots env hat hholds
    have htest := hv.run stack out hat.left hholds
    have hrest := hat.right.tail
    have hend : base + (Chain.branch a b rest).layout.length = base + a.length + 1 +
        (b ++ Chain.leave b rest rest.layout.length).length + rest.layout.length := by
      simp only [Chain.layout, List.length_append, List.length_cons]
      omega
    rw [hend]
    by_cases hfalse : A.isFalse (v env) = true
    · simp only [hfalse, if_true]
      -- over the block and the jump behind it
      have hover : Reaches A full ⟨base + a.length, v env :: stack, slots, out⟩
          ⟨base + a.length + 1 + (b ++ Chain.leave b rest rest.layout.length).length, stack, slots, out⟩ := by
        refine Reaches.step hat.right.head ?_
        simp [exec?, hfalse]
        omega
      obtain ⟨stack', slots', hreach, hholds'⟩ := hg.run stack out hrest.right
        ((hholds.mono hv.grows).mono hf.grows)
      exact ⟨stack', slots', (htest.trans hover).trans hreach, hholds'⟩
    · simp only [hfalse]
      -- through the block, and with the jump behind it to the end of the chain
      have hinto : Reaches A full ⟨base + a.length, v env :: stack, slots, out⟩
          ⟨base + a.length + 1, stack, slots, out⟩ := by
        refine Reaches.step hat.right.head ?_
        simp [exec?, hfalse]
      obtain ⟨stack', slots', hreach, hholds'⟩ := hf.run stack out hrest.left.left
        (hholds.mono hv.grows)
      have hleave := reaches_leave A stack' (f ⟨env, out⟩).out slots' hf.noRet
        hrest.left.right
      refine ⟨stack', slots', ((htest.trans hinto).trans hreach).trans ?_, hholds'.mono hg.grows⟩
      rw [List.length_append, ← Nat.add_assoc]
      exact hleave

end

end Bies
