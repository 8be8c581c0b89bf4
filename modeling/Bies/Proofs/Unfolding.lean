import Bies.Proofs.Calls
import Mathlib.Data.List.Forall2

/-!
# Numbers in the place of code

Two programs for the machine with calls, one of which has a number where the other has code that computes
it. The code may read variables, and is right about them if each variable was stored last by the
declaration that its number was taken from. Within a frame of its own a function stores in the order of
its code, so this is seen from the code; for a variable of another frame it is asked of the run.
-/

namespace Bies
namespace Unfolding

abbrev Labelled := List (Instruction × NodeId)

/-- Which identifiers a number is put for, each with the node that the number is taken from, and the number of such
a node. -/
structure Sources where
  puts : List (NodeId × NodeId)
  number : NodeId → Option Number

section
variable (S : Sources)

/-- The instruction is known to push the number, if `written` says which node stored the slots of the frame last. -/
inductive Known (written : Nat → Option NodeId) : Instruction × NodeId → Number → Prop
  | literal {x k} (l : NodeId) (h : x.number? = some k) : Known written (.ldv x, l) k
  | put {n slot i j k} (hput : (i, j) ∈ S.puts) (hk : S.number j = some k)
      (hown : n = 0 → written slot = some j) : Known written (.bld n slot, i) k

/-- Code that computes with known numbers: from the stack of the first numbers to that of the second. -/
inductive Computes (written : Nat → Option NodeId) : Labelled → List Number → List Number → Prop
  | nil (ns : List Number) : Computes written [] ns ns
  | push {x rest k ns ms} (h : Known S written x k)
      (hrest : Computes written rest (k :: ns) ms) : Computes written (x :: rest) ns ms
  | apply {i l rest op a b c ns ms}
      (hop : i.operator? = some op) (h : a.combine? op b = some c) (hrest : Computes written rest (c :: ns) ms) :
      Computes written ((i, l) :: rest) (a :: b :: ns) ms

/-- The second code is the first with numbers in the place of code that computes them. The number `top`, if there is
one, is on the stack before. -/
inductive Aligned : (written : Nat → Option NodeId) → (top : Option Number) → Labelled → Code → Prop
  | nil {written top} : Aligned written top [] []
  | same {written top i d f} (l : NodeId)
      (hi : ∀ slot, i ≠ .bst 0 slot) (hrest : Aligned written none d f) : Aligned written top ((i, l) :: d) (i :: f)
  | store {written top slot l d f}
      (htop : ∀ k, S.number l = some k → top = some k)
      (hrest : Aligned (fun k => if k = slot then some l else written k) none d f) :
      Aligned written top ((.bst 0 slot, l) :: d) (.bst 0 slot :: f)
  | fold {written top block x k d f} (hx : x.number? = some k) (hblock : Computes S written block [] [k])
      (hrest : Aligned written (some k) d f) : Aligned written top (block ++ d) (.ldv x :: f)

variable {S} {written : Nat → Option NodeId}

theorem Computes.append {a b : Labelled} {ns ms ls : List Number} (ha : Computes S written a ns ms)
    (hb : Computes S written b ms ls) : Computes S written (a ++ b) ns ls := by
  induction ha with
  | nil => exact hb
  | push h _ ih => exact .push h (ih hb)
  | apply hop h _ ih => exact .apply hop h (ih hb)

theorem Computes.frame {a : Labelled} {ns ms : List Number} (more : List Number) (h : Computes S written a ns ms) :
    Computes S written a (ns ++ more) (ms ++ more) := by
  induction h with
  | nil => exact .nil _
  | push h _ ih => exact .push h ih
  | apply hop h _ ih => exact .apply hop h ih

theorem Aligned.weaken {d : Labelled} {f : Code} (top : Option Number) (h : Aligned S written none d f) :
    Aligned S written top d f := by
  cases h with
  | nil => exact .nil
  | same l hi hrest => exact .same l hi hrest
  | store htop hrest => exact .store (fun k hk => by cases htop k hk) hrest
  | fold hx hblock hrest => exact .fold hx hblock hrest

end

end Unfolding

/-! ## Two runs -/

namespace Process

variable {V : Type}

def label? (labels : FunctionId → List NodeId) (position : FunctionId × Nat) : Option NodeId :=
  (labels position.1)[position.2]?

/-- If the next step is to read a variable of another frame by an identifier that a number is put for, then the
variable was stored last by the node that the number is taken from. -/
def Sourced (functions : List FunctionCode) (labels : FunctionId → List NodeId) (puts : List (NodeId × NodeId))
    (p : Process V) : Prop :=
  ∀ {call n slot i j}, p.calls.head? = some call → p.next? functions = some (.bld (n + 1) slot) →
    p.position?.bind (label? labels) = some i → (i, j) ∈ puts →
      ((p.slot? call.frame (n + 1) slot).bind (·.writer)).bind (label? labels) = some j

end Process

structure Activation.Alike {V : Type} (a b : Activation V) : Prop where
  function : a.function = b.function
  link : a.link = b.link
  value : ∀ slot, (a.slots slot).value = (b.slots slot).value

def Arithmetic.number {V : Type} (A : Arithmetic V) (k : Number) : Value V := .data (A.ofNumber k)

namespace Unfolding

section
variable {V : Type} (A : Arithmetic V) (S : Sources)

/-- Where two calls may be, with what is left of their code and with their stacks. The first may be inside code that
computes what the second has as a number. -/
inductive Abreast (written : Nat → Option NodeId) : Labelled → List (Value V) → Code → List (Value V) → Prop
  | within {block d ns x k f τ}
      (hx : x.number? = some k) (hblock : Computes S written block ns [k]) (hrest : Aligned S written (some k) d f) :
      Abreast written (block ++ d) (ns.map A.number ++ τ) (.ldv x :: f) τ
  | level {top d f σ}
      (htop : ∀ k, top = some k → σ.head? = some (A.number k)) (hrest : Aligned S written top d f) :
      Abreast written d σ f σ

inductive Settled (written : Nat → Option NodeId) : Labelled → List (Value V) → Code → List (Value V) → Prop
  | block {y block d ns x k f τ} (hx : x.number? = some k) (hblock : Computes S written (y :: block) ns [k])
      (hrest : Aligned S written (some k) d f) : Settled written (y :: (block ++ d)) (ns.map A.number ++ τ)
        (.ldv x :: f) τ
  | ends {σ} : Settled written [] σ [] σ
  | same {i d f σ} (l : NodeId)
    (hi : ∀ slot, i ≠ .bst 0 slot)
      (hrest : Aligned S written none d f) : Settled written ((i, l) :: d) σ (i :: f) σ
  | store {slot l d f σ}
      (htop : ∀ k, S.number l = some k → σ.head? = some (A.number k))
      (hrest : Aligned S (fun k => if k = slot then some l else written k) none d f) :
      Settled written ((.bst 0 slot, l) :: d) σ (.bst 0 slot :: f) σ

variable {A S} {written : Nat → Option NodeId}

theorem Aligned.settled {top : Option Number} {d : Labelled} {f : Code} {σ : List (Value V)}
    (htop : ∀ k, top = some k → σ.head? = some (A.number k)) (h : Aligned S written top d f) :
    Settled A S written d σ f σ := by
  cases h with
  | nil => exact .ends
  | same l hi hrest => exact .same l hi hrest
  | store hstore hrest => exact .store (fun k hk => htop k (hstore k hk)) hrest
  | @fold _ _ block x k d f hx hblock hrest =>
    match block, hblock with
    | y :: block, hblock => exact @Settled.block _ A S written y block d [] x k f σ hx hblock hrest

end

section
variable {V : Type} (A : Arithmetic V) (S : Sources) (labels : FunctionId → List NodeId)
  (direct folded : List FunctionCode)

structure Unfolds : Prop where
  aligned : ∀ {g f}, FunctionCode.find? direct g = some f → ∃ f', FunctionCode.find? folded g = some f' ∧
    f.parent = f'.parent ∧ f.code.length = (labels g).length ∧
    Aligned S (fun _ => none) none (f.code.zip (labels g)) f'.code

structure Waiting (frames : List (Activation V)) (call call' : Call V) : Prop where
  frame : call.frame = call'.frame
  stack : call.stack = call'.stack
  rest : ∃ a f f' written, frames[call.frame]? = some a ∧ FunctionCode.find? direct a.function = some f ∧
    FunctionCode.find? folded a.function = some f' ∧ f.code.length = (labels a.function).length ∧
    (∀ slot, (a.slots slot).writer.bind (Process.label? labels) = written slot) ∧
    Aligned S written none ((f.code.zip (labels a.function)).drop call.pc) (f'.code.drop call'.pc)

def Stored (frames : List (Activation V)) : Prop :=
  ∀ a ∈ frames, ∀ slot j k, (a.slots slot).writer.bind (Process.label? labels) = some j → S.number j = some k →
    (a.slots slot).value = A.number k

/-- The processes are in the same frames, with the same calls waiting. For what is left of the code of the innermost
calls, and for their stacks, `R` holds. -/
structure Simulates (R : (Nat → Option NodeId) → Labelled → List (Value V) → Code → List (Value V) → Prop)
    (p q : Process V) (call call' : Call V) (rest rest' : List (Call V)) (a b : Activation V) (f f' : FunctionCode)
    (written : Nat → Option NodeId) : Prop where
  here : Process.Innermost direct p call rest a f
  there : Process.Innermost folded q call' rest' b f'
  frame : call.frame = call'.frame
  frames : List.Forall₂ Activation.Alike p.frames q.frames
  out : p.out = q.out
  stored : Stored A S labels p.frames
  apart : call.frame ∉ rest.map (·.frame) ∧ (rest.map (·.frame)).Nodup
  waiting : List.Forall₂ (Waiting S labels direct folded p.frames) rest rest'
  length : f.code.length = (labels a.function).length
  writers : ∀ slot, (a.slots slot).writer.bind (Process.label? labels) = written slot
  left : R written ((f.code.zip (labels a.function)).drop call.pc) call.stack (f'.code.drop call'.pc) call'.stack

def Simulated (R : (Nat → Option NodeId) → Labelled → List (Value V) → Code → List (Value V) → Prop)
    (p q : Process V) : Prop :=
  ∃ call call' rest rest' a b f f' written, Simulates A S labels direct folded R p q call call' rest
    rest' a b f f' written

variable {A S labels direct folded}

theorem of_drop_zip_cons {code : Code} {ls : List NodeId} {pc : Nat} {i : Instruction} {l : NodeId} {d : Labelled}
    (h : (code.zip ls).drop pc = (i, l) :: d) :
    code[pc]? = some i ∧ ls[pc]? = some l ∧ (code.zip ls).drop (pc + 1) = d := by
  have hhead := List.head?_drop (l := code.zip ls) (i := pc)
  rw [h, List.head?_cons] at hhead
  obtain ⟨hi, hl⟩ := List.getElem?_zip_eq_some.mp hhead.symm
  refine ⟨hi, hl, ?_⟩
  rw [← List.tail_drop, h]
  rfl

theorem of_drop_cons {code : Code} {pc : Nat} {i : Instruction} {c : Code} (h : code.drop pc = i :: c) :
    code[pc]? = some i ∧ code.drop (pc + 1) = c := by
  have hhead := List.head?_drop (l := code) (i := pc)
  rw [h, List.head?_cons] at hhead
  refine ⟨hhead.symm, ?_⟩
  rw [← List.tail_drop, h]
  rfl

section
variable {R R' : (Nat → Option NodeId) → Labelled → List (Value V) → Code → List (Value V) → Prop}
  {p q : Process V}
  {call call' : Call V} {rest rest' : List (Call V)} {a b : Activation V} {f f' : FunctionCode}
  {written : Nat → Option NodeId}

section
variable {τ : List (Value V)} {α β : Type} {r : α → β → Prop} {xs : List α} {ys : List β}
   {frames' : List (Activation V)} {n : Nat} {s : Slot V} {d : Labelled} {link : Linking} {p' : Process V}
   {rest' : List (Call V)} {v : Value V}

theorem Simulates.move (h : Simulates A S labels direct folded R p q call call' rest rest' a b f f' written)
    {pc pc' : Nat}
    {σ : List (Value V)} {out : List (Value V)}
    (hleft : R' written ((f.code.zip (labels a.function)).drop pc) σ (f'.code.drop pc') τ) :
    Simulated A S labels direct folded R' ⟨p.frames, ⟨call.frame, pc, σ⟩ :: rest, out⟩
      ⟨q.frames, ⟨call'.frame, pc', τ⟩ :: rest', out⟩ := by
  refine ⟨_, _, rest, rest', a, b, f, f', written, ⟨rfl, h.here.frames, h.here.function⟩,
    ⟨rfl, h.there.frames, h.there.function⟩, h.frame, h.frames, rfl, h.stored, h.apart, h.waiting,
      h.length, h.writers, hleft⟩

theorem Simulates.eq_there (h : Simulates A S labels direct folded R p q call call' rest rest' a b f f' written) :
    q = ⟨q.frames, ⟨call'.frame, call'.pc, call'.stack⟩ :: rest', p.out⟩ := by
  rw [← h.there.calls, h.out]

theorem Simulated.settle (link : Linking) (h : Simulated A S labels direct folded (Abreast A S) p q) :
    ∃ q', Simulated A S labels direct folded (Settled A S) p q' ∧ ∀ out,
      Process.Halts A link folded (fun _ => True) q' out → Process.Halts A link folded (fun _ => True) q out := by
  obtain ⟨call, call', rest, rest', a, b, f, f', written, h⟩ := h
  have hp : p = ⟨p.frames, ⟨call.frame, call.pc, call.stack⟩ :: rest, p.out⟩ := by rw [← h.here.calls]
  have hq := h.eq_there
  have hleft := h.left
  generalize hd : (f.code.zip (labels a.function)).drop call.pc = d at hleft
  generalize hc : f'.code.drop call'.pc = c at hleft
  generalize hσ : call.stack = σ at hleft
  generalize hτ : call'.stack = τ at hleft
  cases hleft with
  | level htop hrest =>
    refine ⟨q, ?_, fun _ hout => hout⟩
    rw [hp, hq]
    exact h.move (by rw [hd, hc, hσ, hτ]; exact hrest.settled htop)
  | @within block d ns x k c τ hx hblock hrest =>
    cases block with
    | cons y block =>
      refine ⟨q, ?_, fun _ hout => hout⟩
      rw [hp, hq]
      exact h.move (by rw [hd, hc, hσ, hτ]; exact .block hx hblock hrest)
    | nil =>
      cases hblock
      obtain ⟨hnext, hc⟩ := of_drop_cons hc
      have hstep : q.step? A link folded = some (q.proceed call' rest' (A.number k :: τ)) := by
        rw [h.there.step?, hnext]
        simp [Process.exec?, hx, hτ, Arithmetic.number]
      refine ⟨q.proceed call' rest' (A.number k :: τ), ?_, fun _ hout => .step trivial hstep hout⟩
      rw [hp, hq]
      refine h.move ?_
      rw [hd, hc, hσ]
      exact hrest.settled fun k' hk' => by rw [Option.some.inj hk']; rfl

/-! ### Frames -/

theorem forall₂_getElem? (h : List.Forall₂ r xs ys) :
    ∀ {k : Nat} {x : α}, xs[k]? = some x → ∃ y, ys[k]? = some y ∧ r x y := by
  induction h with
  | nil =>
    intro k x hx
    cases hx
  | cons hxy _ ih =>
    intro k x hx
    cases k with
    | zero =>
      obtain rfl := Option.some.inj hx
      exact ⟨_, rfl, hxy⟩
    | succ k => exact ih hx

theorem up?_of_alike {frames : List (Activation V)} (h : List.Forall₂ Activation.Alike frames frames') :
    ∀ {n k m : Nat}, Process.up? frames n k = some m → Process.up? frames' n k = some m
  | 0, _, _, hm => hm
  | n + 1, k, m, hm => by
    obtain ⟨next, hnext, hm⟩ := Option.bind_eq_some_iff.mp hm
    obtain ⟨a, ha, hlink⟩ := Option.bind_eq_some_iff.mp hnext
    obtain ⟨b, hb, hab⟩ := forall₂_getElem? h ha
    unfold Process.up?
    rw [hb, Option.bind_some, ← hab.link, hlink]
    exact up?_of_alike h hm

theorem slot?_of_alike {p q : Process V} (h : List.Forall₂ Activation.Alike p.frames q.frames) {frame slot : Nat}
    (hs : p.slot? frame n slot = some s) : ∃ t, q.slot? frame n slot = some t ∧ s.value = t.value := by
  obtain ⟨k, hk, hs⟩ := Option.bind_eq_some_iff.mp hs
  obtain ⟨a, ha, rfl⟩ := Option.map_eq_some_iff.mp hs
  obtain ⟨b, hb, hab⟩ := forall₂_getElem? h ha
  exact ⟨b.slots slot, by simp [Process.slot?, up?_of_alike h hk, hb], hab.value slot⟩

theorem skeleton_of_alike {frames : List (Activation V)} (h : List.Forall₂ Activation.Alike frames frames') :
    frames.map (fun a => (a.function, a.link)) = frames'.map fun a => (a.function, a.link) := by
  induction h with
  | nil => rfl
  | cons hab _ ih => rw [List.map_cons, List.map_cons, hab.function, hab.link, ih]

theorem forall₂_modify {g : α → α} {g' : β → β} (hg : ∀ {x y}, r x y → r (g x) (g' y))
    (h : List.Forall₂ r xs ys) : ∀ k, List.Forall₂ r (xs.modify k g) (ys.modify k g') := by
  induction h with
  | nil => exact fun k => by cases k <;> exact .nil
  | cons hxy hrest ih =>
    intro k
    cases k with
    | zero => exact .cons (hg hxy) hrest
    | succ k => exact .cons hxy (ih k)

/-! ### Steps -/

theorem Simulates.alike (h : Simulates A S labels direct folded R p q call call' rest rest' a b f f' written) :
    a.Alike b := by
  obtain ⟨c, hc, hac⟩ := forall₂_getElem? h.frames h.here.frames
  rw [h.frame, h.there.frames] at hc
  exact Option.some.inj hc ▸ hac

theorem Simulates.read (h : Simulates A S labels direct folded R p q call call' rest rest' a b f f' written)
    (hsourced : p.Sourced direct labels S.puts) {slot : Nat} {i : NodeId} {k : Number}
    (hd : (f.code.zip (labels a.function)).drop call.pc = (.bld n slot, i) :: d)
    (hknown : Known S written (.bld n slot, i) k) (hs : p.slot? call.frame n slot = some s) :
    s.value = A.number k := by
  obtain ⟨m, hm, hs'⟩ := Option.bind_eq_some_iff.mp hs
  obtain ⟨c, hc, rfl⟩ := Option.map_eq_some_iff.mp hs'
  obtain ⟨hnext, hlabel, -⟩ := of_drop_zip_cons hd
  cases hknown with
  | @put _ _ _ j _ hput hk hown =>
    refine h.stored c (List.mem_of_getElem? hc) slot j k ?_ hk
    cases n with
    | zero =>
      obtain rfl := Option.some.inj hm
      obtain rfl := Option.some.inj (h.here.frames.symm.trans hc)
      rw [h.writers, hown rfl]
    | succ n =>
      have hcall : p.calls.head? = some call := by rw [h.here.calls]; rfl
      have := hsourced hcall (h.here.next?.trans hnext)
        (by simpa [Process.position?, h.here.calls, h.here.frames, Process.label?] using hlabel) hput
      rw [hs, Option.bind_some] at this
      exact this

theorem Simulates.compute (h : Simulates A S labels direct folded R p q call call' rest rest' a b f f' written)
    (hsourced : p.Sourced direct labels S.puts) {y : Instruction × NodeId} {block : Labelled} {ns ms : List Number}
    (hd : (f.code.zip (labels a.function)).drop call.pc = y :: d)
    (hblock : Computes S written (y :: block) ns ms) (hstack : call.stack = ns.map A.number ++ τ)
    (hstep : p.exec? A link direct call rest a.function y.1 = some p') :
    ∃ ns', p' = p.proceed call rest (ns'.map A.number ++ τ) ∧ Computes S written block ns' ms := by
  cases hblock with
  | @push _ _ k _ _ hknown hrest =>
    refine ⟨k :: ns, ?_, hrest⟩
    cases hknown with
    | literal l hx =>
      simp only [Process.exec?, hx, Option.map_some, Option.some.injEq] at hstep
      rw [← hstep, hstack]
      rfl
    | @put n slot i j _ hput hk hown =>
      simp only [Process.exec?] at hstep
      obtain ⟨s, hs, rfl⟩ := Option.map_eq_some_iff.mp hstep
      rw [h.read hsourced hd (.put hput hk hown) hs, hstack]
      rfl
  | @apply i l _ op x y z ns _ hop hcombine hrest =>
    refine ⟨z :: ns, ?_, hrest⟩
    rw [Process.exec?_operator hop hstack] at hstep
    rw [← Option.some.inj hstep, A.apply_of_combine? hcombine]
    rfl

theorem Waiting.mono {frames : List (Activation V)} (h : Waiting S labels direct folded frames call call')
    (hframes : ∀ {c}, frames[call.frame]? = some c → frames'[call.frame]? = some c) :
    Waiting S labels direct folded frames' call call' := by
  obtain ⟨c, g, g', written, hc, hrest⟩ := h.rest
  exact ⟨h.frame, h.stack, c, g, g', written, hframes hc, hrest⟩

theorem Waiting.lt {frames : List (Activation V)} (h : Waiting S labels direct folded frames call call') :
    call.frame < frames.length := by
  obtain ⟨c, g, g', written, hc, -⟩ := h.rest
  exact (List.getElem?_eq_some_iff.mp hc).1

theorem Waiting.all_lt {frames : List (Activation V)} {rest : List (Call V)}
    (h : List.Forall₂ (Waiting S labels direct folded frames) rest rest') :
    ∀ k ∈ rest.map (·.frame), k < frames.length := by
  induction h with
  | nil => exact nofun
  | cons hcall _ ih => exact List.forall_mem_cons.mpr ⟨hcall.lt, ih⟩

theorem Waiting.modify {frames : List (Activation V)} {g : Activation V → Activation V} {k : Nat}
    {rest : List (Call V)} (hk : k ∉ rest.map (·.frame))
    (h : List.Forall₂ (Waiting S labels direct folded frames) rest rest') :
    List.Forall₂ (Waiting S labels direct folded (frames.modify k g)) rest rest' := by
  induction h with
  | nil => exact .nil
  | cons hcall _ ih =>
    rw [List.map_cons, List.mem_cons, not_or] at hk
    refine .cons (hcall.mono fun {c} hc => ?_) (ih hk.2)
    simp [hc, hk.1]

theorem Simulates.leave (h : Simulates A S labels direct folded R p q call call' rest rest' a b f f' written)
    (hleave : p.leave v rest = some p') :
    ∃ q', q.leave v rest' = some q' ∧ Simulated A S labels direct folded (Abreast A S) p' q' := by
  have hwaiting := h.waiting
  cases hwaiting with
  | nil => cases hleave
  | @cons caller caller' more more' hcaller hmore =>
    obtain rfl := Option.some.inj hleave
    obtain ⟨c, g, g', written', hc, hg, hg', hlength, hwriters, haligned⟩ := hcaller.rest
    obtain ⟨c', hc', hcc'⟩ := forall₂_getElem? h.frames hc
    refine ⟨_, rfl, _, _, more, more', c, c', g, g', written', ⟨rfl, hc, hg⟩,
      ⟨rfl, hcaller.frame ▸ hc', hcc'.function ▸ hg'⟩,
      hcaller.frame, h.frames, h.out, h.stored, ?_, hmore, hlength, hwriters, ?_⟩
    · simpa using h.apart.2
    · rw [hcaller.stack]
      exact .level (fun _ hk => by cases hk) haligned

theorem Simulates.enter (h : Simulates A S labels direct folded R p q call call' rest rest' a b f f' written)
    (hunfolds : Unfolds S labels direct folded) {g : FunctionId} {stack : List (Value V)}
    (henter : p.enter? A link direct call rest n g stack = some p')
    (hleft : Aligned S written none ((f.code.zip (labels a.function)).drop (call.pc + 1))
      (f'.code.drop (call'.pc + 1))) :
    ∃ q', q.enter? A link folded call' rest' n g stack = some q' ∧
      Simulated A S labels direct folded (Abreast A S) p' q' := by
  unfold Process.enter? at henter ⊢
  obtain ⟨hn, henter⟩ := Option.ite_none_right_eq_some.mp henter
  obtain ⟨callee, hcallee, rfl⟩ := Option.map_eq_some_iff.mp henter
  obtain ⟨callee', hcallee', hparent, hlength, haligned⟩ := hunfolds.aligned hcallee
  rw [if_pos hn, hcallee', Option.map_some]
  refine ⟨_, rfl, ?_⟩
  have hskeleton : p.skeleton = q.skeleton := skeleton_of_alike h.frames
  have hsize : p.frames.length = q.frames.length := h.frames.length_eq
  let frame : Activation V :=
    ⟨g, link p.skeleton call.frame callee.parent, Process.arguments A (stack.take n).reverse⟩
  have hgrow {k : Nat} {c : Activation V} (hc : p.frames[k]? = some c) : (p.frames ++ [frame])[k]? = some c := by
    rw [List.getElem?_append_left (List.getElem?_eq_some_iff.mp hc).1, hc]
  have hunwritten (slot : Nat) : (Process.arguments A (stack.take n).reverse slot).writer = none := by
    unfold Process.arguments
    cases (stack.take n).reverse[slot]? <;> rfl
  have hlt : call.frame < p.frames.length := (List.getElem?_eq_some_iff.mp h.here.frames).1
  have hlts := Waiting.all_lt h.waiting
  refine ⟨_, _, _, _, frame, frame, callee, callee', fun _ => none, ⟨rfl, by simp [frame], hcallee⟩,
    ⟨rfl, ?_, hcallee'⟩, hsize,
    ?_, h.out, ?_, ?_, ?_, hlength, fun slot => by rw [hunwritten]; rfl, ?_⟩
  · simp [frame, hskeleton, h.frame, hparent]
  · refine List.rel_append h.frames (.cons ?_ .nil)
    rw [hskeleton, h.frame, hparent]
    exact ⟨rfl, rfl, fun _ => rfl⟩
  · intro c hc slot j k hj
    rcases List.mem_append.mp hc with hc | hc
    · exact h.stored c hc slot j k hj
    · obtain rfl := List.mem_singleton.mp hc
      rw [hunwritten] at hj
      cases hj
  -- the new frame is beyond all that are in use
  · rw [List.map_cons, List.nodup_cons, List.mem_cons]
    refine ⟨?_, h.apart⟩
    rintro (heq | hmem)
    · exact Nat.lt_irrefl _ (heq ▸ hlt)
    · exact Nat.lt_irrefl _ (hlts _ hmem)
  · refine .cons ⟨h.frame, rfl, a, f, f', written, hgrow h.here.frames, h.here.function, ?_, h.length,
      h.writers, hleft⟩ ?_
    · rw [h.alike.function]
      exact h.there.function
    · exact h.waiting.imp fun _ _ hw => hw.mono hgrow
  · exact .level (fun _ hk => by cases hk) haligned

theorem Simulates.store (h : Simulates A S labels direct folded R p q call call' rest rest' a b f f' written)
    {slot : Nat}
    {l : NodeId} {c : Code} {stack : List (Value V)}
    (hd : (f.code.zip (labels a.function)).drop call.pc = (.bst 0 slot, l) :: d) (hc : f'.code.drop (call'.pc + 1) = c)
    (hnumber : ∀ k, S.number l = some k → v = A.number k)
    (hrest : Aligned S (fun k => if k = slot then some l else written k) none d c) :
    Simulated A S labels direct folded (Abreast A S)
      { p.proceed call rest stack with
        frames := p.frames.modify call.frame (·.store slot ⟨v, some (a.function, call.pc)⟩) }
      { q.proceed call' rest' stack with
        frames := q.frames.modify call'.frame (·.store slot ⟨v, some (b.function, call'.pc)⟩) } := by
  obtain ⟨-, hlabel, hd⟩ := of_drop_zip_cons hd
  have hstored {c : Activation V} {k : Nat} : ((c.store slot ⟨v, some (a.function, call.pc)⟩).slots k).writer.bind
      (Process.label? labels) = if k = slot then some l else (c.slots k).writer.bind (Process.label? labels) := by
    rw [Activation.slots_store]
    by_cases hk : k = slot
    · simpa [hk, Process.label?] using hlabel
    · simp [hk]
  refine ⟨_, _, rest, rest', a.store slot ⟨v, some (a.function, call.pc)⟩,
    b.store slot ⟨v, some (b.function, call'.pc)⟩, f, f',
    fun k => if k = slot then some l else written k, ⟨rfl, ?_, h.here.function⟩, ⟨rfl, ?_, h.there.function⟩,
      h.frame, ?_, h.out,
    ?_, h.apart, ?_, h.length, fun k => ?_, ?_⟩
  · simp [h.here.frames]
  · simp [h.there.frames]
  · show List.Forall₂ Activation.Alike (p.frames.modify call.frame _) (q.frames.modify call'.frame _)
    rw [← h.frame]
    refine forall₂_modify (fun hxy => ⟨hxy.function, hxy.link, fun k => ?_⟩) h.frames _
    by_cases hk : k = slot
    · simp [Activation.slots_store, hk]
    · simp [Activation.slots_store, hk, hxy.value k]
  · intro c hc k j number hj hnum
    obtain ⟨m, hm⟩ := List.mem_iff_getElem?.mp hc
    rw [List.getElem?_modify] at hm
    obtain ⟨c, hframes, rfl⟩ := Option.map_eq_some_iff.mp hm
    have hold := h.stored c (List.mem_of_getElem? hframes) k j number
    by_cases hframe : call.frame = m
    · rw [if_pos hframe] at hj ⊢
      rw [hstored] at hj
      by_cases hk : k = slot
      · rw [if_pos hk] at hj
        rw [Activation.slots_store, if_pos hk]
        exact hnumber number (Option.some.inj hj ▸ hnum)
      · rw [if_neg hk] at hj
        rw [Activation.slots_store, if_neg hk]
        exact hold hj hnum
    · rw [if_neg hframe] at hj ⊢
      exact hold hj hnum
  · exact Waiting.modify h.apart.1 h.waiting
  · rw [hstored, h.writers]
  · show Abreast A S _ ((f.code.zip (labels a.function)).drop (call.pc + 1)) stack (f'.code.drop (call'.pc + 1)) stack
    rw [hd, hc]
    exact .level (fun _ hk => by cases hk) hrest

theorem Simulates.same (h : Simulates A S labels direct folded R p q call call' rest rest' a b f f' written)
    (hunfolds : Unfolds S labels direct folded) {i : Instruction}
    (hi : ∀ slot, i ≠ .bst 0 slot) (hstack : call.stack = call'.stack)
    (hleft : Aligned S written none ((f.code.zip (labels a.function)).drop (call.pc + 1)) (f'.code.drop (call'.pc + 1)))
    (hstep : p.exec? A link direct call rest a.function i = some p') :
    ∃ q', q.exec? A link folded call' rest' b.function i = some q' ∧
      Simulated A S labels direct folded (Abreast A S) p' q' := by
  have habreast {stack : List (Value V)} : Abreast A S written
    ((f.code.zip (labels a.function)).drop (call.pc + 1)) stack
      (f'.code.drop (call'.pc + 1)) stack := .level (fun _ hk => by cases hk) hleft
  have hproceed {stack : List (Value V)} : Simulated A S labels direct folded (Abreast A S) (p.proceed call rest stack)
      (q.proceed call' rest' stack) := by
    unfold Process.proceed
    rw [← h.out]
    exact h.move habreast
  unfold Process.exec? at hstep
  split at hstep
  next x =>
    obtain ⟨k, hk, rfl⟩ := Option.map_eq_some_iff.mp hstep
    refine ⟨q.proceed call' rest' (.data (A.ofNumber k) :: call.stack), by simp [Process.exec?, hk, hstack], ?_⟩
    exact hproceed
  next g =>
    obtain rfl := Option.some.inj hstep
    refine ⟨q.proceed call' rest' (.function g :: call.stack), by simp [Process.exec?, hstack], ?_⟩
    exact hproceed
  next n slot =>
    obtain ⟨s, hs, rfl⟩ := Option.map_eq_some_iff.mp hstep
    obtain ⟨t, ht, hst⟩ := slot?_of_alike h.frames hs
    refine ⟨q.proceed call' rest' (s.value :: call.stack), by simp [Process.exec?, ← h.frame, ht, hst, hstack], ?_⟩
    exact hproceed
  next slot v stack hcall => exact absurd rfl (hi slot)
  next n g stack hcall =>
    obtain ⟨q', hq', hsim⟩ := h.enter hunfolds hstep hleft
    exact ⟨q', by simp [Process.exec?, ← hstack, hcall, hq'], hsim⟩
  next v stack hcall =>
    obtain ⟨q', hq', hsim⟩ := h.leave hstep
    exact ⟨q', by simp [Process.exec?, ← hstack, hcall, hq'], hsim⟩
  next v stack hcall =>
    obtain rfl := Option.some.inj hstep
    refine ⟨{ q.proceed call' rest' stack with out := q.out ++ [v] }, by simp [Process.exec?, ← hstack, hcall], ?_⟩
    rw [← h.out]
    exact h.move habreast
  next left right stack hcall =>
    obtain ⟨op, hop, rfl⟩ := Option.map_eq_some_iff.mp hstep
    refine ⟨_, Process.exec?_operator hop (hstack ▸ hcall), ?_⟩
    exact hproceed
  next => cases hstep

/-- A step of the first process, which the second follows or waits for. -/
theorem Simulated.step (hunfolds : Unfolds S labels direct folded)
    (h : Simulated A S labels direct folded (Settled A S) p q) (hsourced : p.Sourced direct labels S.puts)
    (hstep : p.step? A link direct = some p') :
    ∃ q', Simulated A S labels direct folded (Abreast A S) p' q' ∧
      ∀ out, Process.Halts A link folded (fun _ => True) q' out →
    Process.Halts A link folded (fun _ => True) q out := by
  obtain ⟨call, call', rest, rest', a, b, f, f', written, h⟩ := h
  have hq := h.eq_there
  rw [h.here.step?] at hstep
  have hthere := h.there.step? A link
  have hleft := h.left
  generalize hd : (f.code.zip (labels a.function)).drop call.pc = d at hleft
  generalize hc : f'.code.drop call'.pc = c at hleft
  generalize hσ : call.stack = σ at hleft
  generalize hτ : call'.stack = τ at hleft
  cases hleft with
  | @block y block d ns x k c τ hx hblock hrest =>
    obtain ⟨hnext, -, hd'⟩ := of_drop_zip_cons (i := y.1) (l := y.2) hd
    rw [hnext] at hstep
    obtain ⟨ns', rfl, hblock⟩ := h.compute hsourced hd hblock hσ hstep
    refine ⟨q, ?_, fun _ hout => hout⟩
    rw [hq]
    exact h.move (by rw [hd', hc, hτ]; exact .within hx hblock hrest)
  | ends =>
    have hnext : f.code[call.pc]? = none := by
      have hle := List.drop_eq_nil_iff.mp hd
      rw [List.length_zip, h.length, Nat.min_self, ← h.length] at hle
      exact List.getElem?_eq_none hle
    have hnext' : f'.code[call'.pc]? = none := List.getElem?_eq_none (List.drop_eq_nil_iff.mp hc)
    rw [hnext] at hstep
    rw [hnext'] at hthere
    dsimp only at hstep hthere
    obtain ⟨q', hq', hsim⟩ := h.leave hstep
    refine ⟨q', hsim, fun _ hout => .step trivial (hthere.trans ?_) hout⟩
    rw [hτ, ← hσ, hq']
  | same l hi hrest =>
    obtain ⟨hnext, -, hd⟩ := of_drop_zip_cons hd
    obtain ⟨hnext', hc⟩ := of_drop_cons hc
    rw [hnext] at hstep
    rw [hnext'] at hthere
    obtain ⟨q', hq', hsim⟩ := h.same hunfolds hi (hσ.trans hτ.symm) (by rw [hd, hc]; exact hrest) hstep
    exact ⟨q', hsim, fun _ hout => .step trivial (hthere.trans hq') hout⟩
  | @store slot l d c σ htop hrest =>
    obtain ⟨hnext, -, -⟩ := of_drop_zip_cons hd
    obtain ⟨hnext', hc⟩ := of_drop_cons hc
    rw [hnext] at hstep
    rw [hnext'] at hthere
    dsimp only at hstep hthere
    unfold Process.exec? at hstep hthere
    rw [hσ] at hstep
    rw [hτ] at hthere
    match σ, htop with
    | [], _ => cases hstep
    | v :: stack, htop =>
      obtain rfl := Option.some.inj hstep
      exact ⟨_, h.store hd hc (fun k hk => Option.some.inj (htop k hk)) hrest,
        fun _ hout => .step trivial hthere hout⟩

/-- Where the first process halts, the second does. -/
theorem Simulated.halts (hunfolds : Unfolds S labels direct folded) {out : List (Value V)}
    (hp : Process.Halts A link direct (Process.Sourced direct labels S.puts) p out) :
    ∀ {q}, Simulated A S labels direct folded (Abreast A S) p q →
    Process.Halts A link folded (fun _ => True) q out := by
  induction hp with
  | hlt hhlt =>
    intro q hq
    obtain ⟨q₁, ⟨call, call', rest, rest', a, b, f, f', written, h⟩, hhalts₁⟩ := hq.settle link
    refine hhalts₁ _ ?_
    rw [h.out]
    refine .hlt ?_
    rw [h.here.next?] at hhlt
    rw [h.there.next?]
    have hleft := h.left
    generalize hd : (f.code.zip (labels a.function)).drop call.pc = d at hleft
    generalize hc : f'.code.drop call'.pc = c at hleft
    generalize call.stack = σ at hleft
    generalize call'.stack = τ at hleft
    cases hleft with
    | same l hi hrest => rw [(of_drop_cons hc).1, ← (of_drop_zip_cons hd).1, hhlt]
    | @store slot l d =>
      have hnext := (of_drop_zip_cons hd).1
      rw [hhlt] at hnext
      cases hnext
    | ends =>
      have hle := List.drop_eq_nil_iff.mp hd
      rw [List.length_zip, h.length, Nat.min_self, ← h.length] at hle
      rw [List.getElem?_eq_none hle] at hhlt
      cases hhlt
    -- an `HLT` computes nothing
    | @block y block d ns x k f τ hx hblock hrest =>
      have hnext := (of_drop_zip_cons (i := y.1) (l := y.2) hd).1
      rw [hhlt] at hnext
      cases hblock with
      | push hknown => cases hknown <;> cases hnext
      | apply hop =>
        obtain rfl := Option.some.inj hnext
        cases hop
  | step hsourced hstep _ ih =>
    intro q hq
    obtain ⟨q₁, hq₁, hhalts₁⟩ := hq.settle link
    obtain ⟨q₂, hq₂, hhalts₂⟩ := hq₁.step hunfolds hsourced hstep
    exact hhalts₁ _ (hhalts₂ _ (ih hq₂))

theorem Unfolds.halts (hunfolds : Unfolds S labels direct folded) {out : List (Value V)}
    (h : Process.Halts A link direct (Process.Sourced direct labels S.puts) (Process.start A) out) :
    Process.Halts A link folded (fun _ => True) (Process.start A) out := by
  have hmain : ∃ call rest frame f, Process.Innermost direct (Process.start A) call rest frame f := by
    cases h with
    | hlt hhlt => exact Process.exists_innermost A link (.inl (by rw [hhlt]; nofun))
    | step _ hstep _ => exact Process.exists_innermost A link (.inr (by rw [hstep]; nofun))
  obtain ⟨call, rest, frame, f, hcalls, hframe, hf⟩ := hmain
  obtain ⟨rfl, rfl⟩ := List.cons.inj hcalls
  obtain rfl := Option.some.inj hframe
  obtain ⟨f', hf', -, hlength, haligned⟩ := hunfolds.aligned hf
  refine Simulated.halts hunfolds h ⟨_, _, [], [], _, _, f, f', fun _ => none, ⟨rfl, rfl, hf⟩,
    ⟨rfl, rfl, hf'⟩, rfl,
    .cons ⟨rfl, rfl, fun _ => rfl⟩ .nil, rfl, ?_, ⟨nofun, .nil⟩, .nil, hlength, fun _ => rfl, ?_⟩
  · intro a ha slot j k hj
    obtain rfl := List.mem_singleton.mp ha
    cases hj
  · exact .level (fun _ hk => by cases hk) haligned

end

end

end

end Unfolding
end Bies
