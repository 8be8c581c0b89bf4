import Bies.Compile
import Bies.Proofs.Code
import Bies.Proofs.Node
import Mathlib.Logic.Relation

/-!
# Control flow through a chain of conditions

A walk follows the jumps of finished code; `holds` says for each position which way the condition
tested there comes out. On a chain the walk should pass tests until one holds, then the block of that
test and nothing else of the chain. `Chain.follows_iff_sealed`: it does so for all outcomes of the
conditions exactly if no block that ends in a return, and so gets no jump behind it, can be left at its
end into further code of the chain.
-/

namespace Bies

def Instruction.next? (holds : Nat → Bool) (pc : Nat) : Instruction → Option Nat
  | .bf offset => some (if holds pc then pc + 1 else ((pc : Int) + offset).toNat)
  | .br offset => some ((pc : Int) + offset).toNat
  | .ret | .hlt => none
  | _ => some (pc + 1)

theorem Instruction.next?_straight {holds : Nat → Bool} {pc : Nat} {i : Instruction} (h : i.isStraight = true) :
    i.next? holds pc = some (pc + 1) := by
  cases i <;> simp [isStraight] at h <;> rfl

namespace Code

def Step (code : Code) (holds : Nat → Bool) (stop a b : Nat) : Prop :=
  a ≠ stop ∧ ∃ i, code[a]? = some i ∧ i.next? holds a = some b

def Leads (code : Code) (holds : Nat → Bool) (stop : Nat) : Nat → Nat → Prop :=
  Relation.ReflTransGen (Step code holds stop)

section
variable {code part : Code} {holds : Nat → Bool} {base stop a b : Nat}

theorem Closed.step_lt (hc : part.Closed) (hat : At code base part) (hs : Step code holds stop a b)
    (hl : base ≤ a) (hr : a < base + part.length) : a < b ∧ b ≤ base + part.length := by
  obtain ⟨_, i, hi, hn⟩ := hs
  obtain ⟨j, hj, hi'⟩ := hat.get hl hr
  obtain rfl : j = i := by simpa [hi'] using hi
  have jump : ∀ offset, j.offset? = some offset → 0 < offset ∧ a + offset ≤ base + part.length := by
    intro offset ho
    have := hc.forward hj ho
    omega
  cases j with
  | bf offset =>
    have := jump offset rfl
    simp only [Instruction.next?, Option.some.injEq] at hn
    split at hn <;> omega
  | br offset =>
    have := jump offset rfl
    simp only [Instruction.next?, Option.some.injEq] at hn
    omega
  | ret => simp [Instruction.next?] at hn
  | hlt => simp [Instruction.next?] at hn
  | _ =>
    simp only [Instruction.next?, Option.some.injEq] at hn
    omega

theorem Closed.exists_step (hc : part.Closed) (holds : Nat → Bool) (hat : At code base part) (hl : base ≤ a)
    (hr : a < base + part.length) (hs : a ≠ stop) :
    code[a]? = some .ret ∨ ∃ b, Step code holds stop a b := by
  obtain ⟨i, hi, hi'⟩ := hat.get hl hr
  cases i with
  | ret => exact Or.inl hi'
  | hlt => exact absurd (hc.running _ (List.mem_of_getElem? hi)) (by simp [Instruction.isHlt])
  | _ => exact Or.inr ⟨_, hs, _, hi', rfl⟩

theorem Closed.arrives (hc : part.Closed) (hat : At code base part) (holds : Nat → Bool) :
    ∀ (n : Nat) {a : Nat}, base ≤ a → a + n = base + part.length →
      Leads code holds (base + part.length) a (base + part.length) ∨
      ∃ p, Leads code holds (base + part.length) a p ∧ p < base + part.length ∧ code[p]? = some .ret := by
  -- on the way that is left: jumps go forward, so it gets shorter with every step
  intro n
  induction n using Nat.strongRecOn with
  | ind n ih =>
    intro a hl hn
    by_cases he : a = base + part.length
    · exact Or.inl (he ▸ .refl)
    · rcases hc.exists_step holds hat hl (by omega) he with hret | ⟨b, hb⟩
      · exact Or.inr ⟨a, .refl, by omega, hret⟩
      · have := hc.step_lt hat hb hl (by omega)
        rcases ih (base + part.length - b) (by omega) (a := b) (by omega) (by omega) with h | ⟨p, hp, h⟩
        · exact Or.inl (.head hb h)
        · exact Or.inr ⟨p, .head hb hp, h⟩

theorem Closed.leads_widen (hc : part.Closed) (hat : At code base part) (hl : base ≤ a)
    (hr : a ≤ base + part.length) (hs : base + part.length ≤ stop)
    (h : Leads code holds (base + part.length) a b) :
    Leads code holds stop a b ∧ base ≤ b ∧ b ≤ base + part.length := by
  induction h with
  | refl => exact ⟨.refl, hl, hr⟩
  | tail _ hstep ih =>
    obtain ⟨h, hlb, hrb⟩ := ih
    have hne := hstep.1
    have := hc.step_lt hat hstep hlb (by omega)
    exact ⟨.tail h ⟨by omega, hstep.2⟩, by omega, by omega⟩

theorem Closed.leads_congr (hc : part.Closed) (hat : At code base part) {holds' : Nat → Bool}
    (hh : ∀ p, base ≤ p → holds p = holds' p) (h : Leads code holds (base + part.length) base b) :
    Leads code holds' (base + part.length) base b ∧ base ≤ b ∧ b ≤ base + part.length := by
  induction h with
  | refl => exact ⟨.refl, Nat.le_refl _, Nat.le_add_right _ _⟩
  | tail _ hstep ih =>
    obtain ⟨h, hlb, hrb⟩ := ih
    have hlt := hc.step_lt hat hstep hlb (by have := hstep.1; omega)
    obtain ⟨hne, i, hi, hn⟩ := hstep
    refine ⟨.tail h ⟨hne, i, hi, ?_⟩, by omega, hlt.2⟩
    rw [← hn]
    cases i <;> simp [Instruction.next?, hh _ hlb]

theorem next?_shift (i : Instruction) {index : Nat} (hi : part[index]? = some i) (hc : part.Closed) :
    i.next? holds (base + index) = (i.next? (fun p => holds (base + p)) index).map (base + ·) := by
  have jump : ∀ offset, i.offset? = some offset → 0 < offset := fun offset ho => (hc.forward hi ho).1
  cases i with
  | bf offset =>
    have := jump offset rfl
    simp only [Instruction.next?, Option.map_some, Option.some.injEq]
    split <;> omega
  | br offset =>
    have := jump offset rfl
    simp only [Instruction.next?, Option.map_some, Option.some.injEq]
    omega
  | ret => rfl
  | hlt => rfl
  | _ => simp [Instruction.next?]; omega

theorem Closed.leads_shift (hc : part.Closed) (hat : At code base part) {index : Nat}
    (h : Leads part (fun p => holds (base + p)) part.length 0 index) :
    Leads code holds (base + part.length) base (base + index) := by
  induction h with
  | refl => exact .refl
  | tail _ hstep ih =>
    obtain ⟨hne, i, hi, hn⟩ := hstep
    refine .tail ih ⟨by omega, i, hat _ _ hi, ?_⟩
    rw [next?_shift i hi hc, hn]
    rfl

theorem Closed.leads_unshift (hc : part.Closed) (hat : At code base part)
    (h : Leads code holds (base + part.length) base b) :
    ∃ index, b = base + index ∧ index ≤ part.length ∧
      Leads part (fun p => holds (base + p)) part.length 0 index := by
  induction h with
  | refl => exact ⟨0, rfl, Nat.zero_le _, .refl⟩
  | tail _ hstep ih =>
    obtain ⟨index, rfl, hle, h⟩ := ih
    have hlt := hc.step_lt hat hstep (Nat.le_add_right _ _) (by have := hstep.1; omega)
    obtain ⟨hne, i, hi, hn⟩ := hstep
    obtain ⟨j, hj, hi'⟩ := hat.get (p := base + index) (by omega) (by omega)
    obtain rfl : j = i := by simpa [hi'] using hi
    rw [Nat.add_sub_cancel_left] at hj
    rw [next?_shift j hj hc, Option.map_eq_some_iff] at hn
    obtain ⟨next, hnext, rfl⟩ := hn
    exact ⟨next, rfl, by omega, .tail h ⟨by omega, j, hj, hnext⟩⟩

theorem Straight.leads (hs : part.Straight) (hat : At code base part) (hr : base + part.length ≤ stop) :
    Leads code holds stop base (base + part.length) := by
  induction part generalizing base with
  | nil => exact .refl
  | cons i rest ih =>
    obtain ⟨hi, hrest⟩ := straight_cons.mp hs
    rw [List.length_cons] at hr
    have := ih hrest hat.tail (by omega)
    refine .head ⟨by omega, i, hat.head, Instruction.next?_straight hi⟩ ?_
    rwa [List.length_cons, Nat.add_comm rest.length, ← Nat.add_assoc]

end

/-- Control can run through the code to its end, if its conditions come out right. -/
def Completes (code : Code) : Prop := ∃ holds, Leads code holds code.length 0 code.length

end Code

namespace Lowering
namespace Chain

/-! ## What a walk through a chain should pass -/

/-- The positions of a chain at `base` that the outcomes of its conditions allow: the tests up to the
first one that holds with their jumps, and the block of that one with the jump behind it. -/
def Allowed (holds : Nat → Bool) : (base : Nat) → Chain → Nat → Prop
  | _, .done, _ => False
  | base, .otherwise code, p => base ≤ p ∧ p < base + code.length
  | base, .branch test body rest, p =>
    let branch := base + test.length
    let next := branch + 1 + (body.length + (leave body rest rest.layout.length).length)
    (base ≤ p ∧ p ≤ branch) ∨ if holds branch then branch < p ∧ p < next else Allowed holds next rest p

/-- The walk over a chain that stands at `base` passes allowed positions only, and comes to the end of the
chain unless it meets a return in the block that it is allowed to pass. -/
structure Follows (code : Code) (holds : Nat → Bool) (base : Nat) (chain : Chain) : Prop where
  only : ∀ p, code.Leads holds (base + chain.layout.length) base p →
    p = base + chain.layout.length ∨ chain.Allowed holds base p
  ends : code.Leads holds (base + chain.layout.length) base (base + chain.layout.length) ∨
    ∃ p, code.Leads holds (base + chain.layout.length) base p ∧ chain.Allowed holds base p ∧ code[p]? = some .ret

/-- No block that ends in a return instruction, with more code of the chain behind it, can be left at its
end. -/
def Sealed : Chain → Prop
  | .branch _ body rest => (body.endsInRet = true → rest.layout ≠ [] → ¬ body.Completes) ∧ rest.Sealed
  | _ => True

section
variable {code : Code} {holds : Nat → Bool} {base : Nat} {test body : Code} {rest : Chain}

theorem leave_eq_nil (n : Nat) (h : leave body rest n = []) : rest = .done ∨ body.endsInRet = true := by
  unfold leave at h
  split at h
  next hl =>
    rcases Bool.or_eq_true _ _ |>.mp hl with h | h
    · cases rest with
      | done => exact Or.inl rfl
      | _ => simp [isDone] at h
    · exact Or.inr h
  next => simp at h

theorem leave_cases (body : Code) (rest : Chain) (n : Nat) :
    leave body rest n = [] ∨ leave body rest n = [.br (n + 1)] := by
  unfold leave
  split
  · exact Or.inl rfl
  · exact Or.inr rfl

structure BranchAt (code : Code) (base : Nat) (test body : Code) (rest : Chain) : Prop where
  test_at : code.At base test
  jump_at : code[base + test.length]? = some (.bf (body.length + (leave body rest rest.layout.length).length + 1))
  body_at : code.At (base + test.length + 1) body
  leave_at : code.At (base + test.length + 1 + body.length) (leave body rest rest.layout.length)
  rest_at : code.At (base + test.length + 1 + (body.length + (leave body rest rest.layout.length).length)) rest.layout

theorem branchAt (h : code.At base (Chain.branch test body rest).layout) : BranchAt code base test body rest := by
  have tail := h.right.tail
  refine ⟨h.left, h.right.head, tail.left.left, tail.left.right, ?_⟩
  have := tail.right
  rwa [List.length_append] at this

theorem stop_branch (base : Nat) (test body : Code) (rest : Chain) :
    base + (Chain.branch test body rest).layout.length =
      base + test.length + 1 + (body.length + (leave body rest rest.layout.length).length) + rest.layout.length := by
  rw [length_layout_branch]; omega

variable (code holds base test body rest) in
inductive Passes (stop : Nat) : Nat → Prop
  | test {p : Nat} : base ≤ p → p ≤ base + test.length → Passes stop p
  | body {p : Nat} : holds (base + test.length) = true → base + test.length < p →
    p < base + test.length + 1 + body.length →
    code.Leads holds (base + test.length + 1 + body.length) (base + test.length + 1) p → Passes stop p
  | leave {p : Nat} : holds (base + test.length) = true → leave body rest rest.layout.length ≠ [] →
    p = base + test.length + 1 + body.length → Passes stop p
  | rest {p : Nat} : holds (base + test.length) = false →
    code.Leads holds stop (base + test.length + 1 + (body.length + (leave body rest rest.layout.length).length)) p →
    Passes stop p
  | stop : Passes stop stop

theorem passes_end (hs : (Chain.branch test body rest).Sealed) (hc : body.Closed)
    (hat : BranchAt code base test body rest) (hh : holds (base + test.length) = true)
    (h : code.Leads holds (base + test.length + 1 + body.length) (base + test.length + 1)
      (base + test.length + 1 + body.length)) :
    Passes code holds base test body rest (base + (Chain.branch test body rest).layout.length)
      (base + test.length + 1 + body.length) := by
  by_cases hl : leave body rest rest.layout.length = []
  · have nothing : rest.layout = [] := by
      rcases leave_eq_nil _ hl with hd | hr
      · subst hd; rfl
      · refine Classical.byContradiction fun hne => ?_
        obtain ⟨index, hi, _, hleads⟩ := hc.leads_unshift hat.body_at h
        obtain rfl : index = body.length := by omega
        exact hs.1 hr hne ⟨_, hleads⟩
    have : base + test.length + 1 + body.length = base + (Chain.branch test body rest).layout.length := by
      rw [stop_branch, hl, nothing]; simp
    rw [this]; exact .stop
  · exact .leave hh hl rfl

theorem passes_step (hs : (Chain.branch test body rest).Sealed) (ht : test.Straight) (hc : body.Closed)
    (hat : BranchAt code base test body rest) {p q : Nat}
    (hp : Passes code holds base test body rest (base + (Chain.branch test body rest).layout.length) p)
    (h : code.Step holds (base + (Chain.branch test body rest).layout.length) p q) :
    Passes code holds base test body rest (base + (Chain.branch test body rest).layout.length) q := by
  cases hp with
  | test hl hr =>
    obtain ⟨_, i, hi, hn⟩ := h
    by_cases hb : p = base + test.length
    · subst hb
      obtain rfl : _ = i := by simpa [hat.jump_at] using hi
      simp only [Instruction.next?, Option.some.injEq] at hn
      by_cases hh : holds (base + test.length) = true
      · rw [if_pos hh] at hn
        subst hn
        by_cases he : body.length = 0
        · have := passes_end hs hc hat hh (by rw [he]; exact .refl)
          rwa [he] at this
        · exact .body hh (by omega) (by omega) .refl
      · rw [if_neg hh] at hn
        obtain rfl : base + test.length + 1 + (body.length + (leave body rest rest.layout.length).length) = q := by
          omega
        exact .rest (by simpa using hh) .refl
    · obtain ⟨j, hj, hi'⟩ := hat.test_at.get hl (by omega)
      obtain rfl : j = i := by simpa [hi'] using hi
      rw [Instruction.next?_straight (ht j (List.mem_of_getElem? hj)), Option.some.injEq] at hn
      exact .test (by omega) (by omega)
  | body hh hl hr hleads =>
    have hstep : code.Step holds (base + test.length + 1 + body.length) p q := ⟨by omega, h.2⟩
    have hlt := hc.step_lt hat.body_at hstep (by omega) hr
    by_cases he : q = base + test.length + 1 + body.length
    · subst he
      exact passes_end hs hc hat hh (.tail hleads hstep)
    · exact .body hh (by omega) (by omega) (.tail hleads hstep)
  | leave hh hl he =>
    subst he
    have hleave := (leave_cases body rest rest.layout.length).resolve_left hl
    obtain ⟨_, i, hi, hn⟩ := h
    have hat' := hat.leave_at
    rw [hleave] at hat'
    obtain rfl : _ = i := by simpa [hat'.head] using hi
    simp only [Instruction.next?, Option.some.injEq] at hn
    obtain rfl : base + (Chain.branch test body rest).layout.length = q := by
      rw [stop_branch, hleave]
      simp; omega
    exact .stop
  | rest hh hleads => exact .rest hh (.tail hleads h)
  | stop => exact absurd rfl h.1

end

theorem allowed_of_leads {code : Code} {holds : Nat → Bool} {chain : Chain} (hc : chain.Closed) :
    ∀ {base : Nat}, chain.Sealed → code.At base chain.layout → ∀ {p : Nat},
      code.Leads holds (base + chain.layout.length) base p →
      p = base + chain.layout.length ∨ chain.Allowed holds base p := by
  induction hc with
  | done =>
    intro base _ hat p h
    have := Code.closed_nil.leads_widen hat (Nat.le_refl _) (Nat.le_refl _) (Nat.le_refl _) h
    exact Or.inl (by simp [layout] at this ⊢; omega)
  | @otherwise body hb =>
    intro base _ hat p h
    have := hb.leads_widen hat (Nat.le_refl _) (Nat.le_add_right _ _) (Nat.le_refl _) h
    by_cases he : p = base + body.length
    · exact Or.inl he
    · exact Or.inr ⟨this.2.1, by omega⟩
  | @branch test body rest ht hb _ ih =>
    intro base hs hat p h
    have hat := branchAt hat
    have hp : Passes code holds base test body rest (base + (Chain.branch test body rest).layout.length) p := by
      induction h with
      | refl => exact .test (Nat.le_refl _) (Nat.le_add_right _ _)
      | tail _ hstep ih => exact passes_step hs ht hb hat ih hstep
    cases hp with
    | test hl hr => exact Or.inr (Or.inl ⟨hl, hr⟩)
    | body hh hl hr _ =>
      refine Or.inr (Or.inr ?_)
      rw [if_pos hh]; exact ⟨hl, by omega⟩
    | leave hh hl he =>
      have := List.length_pos_iff.mpr hl
      refine Or.inr (Or.inr ?_)
      rw [if_pos hh]; exact ⟨by omega, by omega⟩
    | rest hh hleads =>
      rw [stop_branch] at hleads ⊢
      rcases ih hs.2 hat.rest_at hleads with he | ha
      · exact Or.inl he
      · refine Or.inr (Or.inr ?_)
        rw [if_neg (by simp [hh])]; exact ha
    | stop => exact Or.inl rfl

theorem follows_of_sealed {code : Code} {base : Nat} {chain : Chain} (hc : chain.Closed) (hs : chain.Sealed)
    (hat : code.At base chain.layout) (holds : Nat → Bool) : chain.Follows code holds base := by
  refine ⟨fun p hp => allowed_of_leads hc hs hat hp, ?_⟩
  rcases hc.layout.arrives hat holds chain.layout.length (Nat.le_refl _) rfl with h | ⟨p, hp, hlt, hret⟩
  · exact Or.inl h
  · rcases allowed_of_leads hc hs hat hp with he | ha
    · omega
    · exact Or.inr ⟨p, hp, ha, hret⟩

/-! ## A chain that is not sealed goes wrong -/

theorem allowed_congr {holds holds' : Nat → Bool} : ∀ (chain : Chain) (base : Nat),
    (∀ p, base ≤ p → holds p = holds' p) → ∀ p, chain.Allowed holds base p ↔ chain.Allowed holds' base p
  | .done, _, _, _ => Iff.rfl
  | .otherwise _, _, _, _ => Iff.rfl
  | .branch test body rest, base, hh, p => by
    have ih := allowed_congr rest
      (base + test.length + 1 + (body.length + (leave body rest rest.layout.length).length))
      (fun q hq => hh q (by omega)) p
    simp only [Allowed, hh (base + test.length) (Nat.le_add_right _ _), ih]

section
variable {code : Code} {holds : Nat → Bool} {base stop : Nat} {test body : Code} {rest : Chain}

theorem leads_block (ht : test.Straight) (hat : BranchAt code base test body rest)
    (hh : holds (base + test.length) = true) (hs : base + test.length < stop) :
    code.Leads holds stop base (base + test.length + 1) := by
  refine .tail (ht.leads hat.test_at (Nat.le_of_lt hs)) ⟨by omega, _, hat.jump_at, ?_⟩
  simp [Instruction.next?, hh]

theorem leads_next (ht : test.Straight) (hat : BranchAt code base test body rest)
    (hh : holds (base + test.length) = false) (hs : base + test.length < stop) :
    code.Leads holds stop base
      (base + test.length + 1 + (body.length + (leave body rest rest.layout.length).length)) := by
  refine .tail (ht.leads hat.test_at (Nat.le_of_lt hs)) ⟨by omega, _, hat.jump_at, ?_⟩
  simp [Instruction.next?, hh]; omega

end

theorem exists_astray {code : Code} {chain : Chain} (hc : chain.Closed) :
    ∀ {base : Nat}, code.At base chain.layout → ¬ chain.Sealed →
      ∃ holds p, code.Leads holds (base + chain.layout.length) base p ∧ p ≠ base + chain.layout.length ∧
        ¬ chain.Allowed holds base p := by
  induction hc with
  | done => exact fun _ hs => absurd trivial hs
  | otherwise => exact fun _ hs => absurd trivial hs
  | @branch test body rest ht hb hrest ih =>
    intro base hat hs
    have hat := branchAt hat
    rw [stop_branch]
    by_cases hr : rest.Sealed
    · -- the first block is left at its end, where the rest of the chain begins
      have : ∃ _ : body.endsInRet = true, rest.layout ≠ [] ∧ body.Completes := by
        refine Classical.byContradiction fun h => hs ⟨fun h₁ h₂ h₃ => h ⟨h₁, h₂, h₃⟩, hr⟩
      obtain ⟨hret, hne, outcome, hleads⟩ := this
      have hl : leave body rest rest.layout.length = [] := by simp [leave, hret]
      have hpos := List.length_pos_iff.mpr hne
      let holds : Nat → Bool := fun p => p == base + test.length || outcome (p - (base + test.length + 1))
      have hh : holds (base + test.length) = true := by simp [holds]
      have hpart : body.Leads (fun p => holds (base + test.length + 1 + p)) body.length 0 body.length := by
        have : (fun p => holds (base + test.length + 1 + p)) = outcome := by
          funext p
          have : ¬ base + test.length + 1 + p = base + test.length := by omega
          show (_ == _ || outcome _) = outcome p
          rw [beq_eq_false_iff_ne.mpr this, Bool.false_or, Nat.add_sub_cancel_left]
        rwa [this]
      have hbody := hb.leads_shift hat.body_at hpart
      refine ⟨holds, base + test.length + 1 + body.length, ?_, ?_, ?_⟩
      · exact (leads_block ht hat hh (by omega)).trans
          (hb.leads_widen hat.body_at (Nat.le_refl _) (Nat.le_add_right _ _) (by omega) hbody).1
      · rw [hl]; simp; omega
      · simp only [Allowed, hh, if_true, hl, List.length_nil]
        omega
    · -- the first test fails and the rest goes wrong
      obtain ⟨outcome, p, hleads, hp, hna⟩ := ih hat.rest_at hr
      let holds : Nat → Bool := fun p => p != base + test.length && outcome p
      have hh : holds (base + test.length) = false := by simp [holds]
      have agree : ∀ q, base + test.length + 1 + (body.length + (leave body rest rest.layout.length).length) ≤ q →
          outcome q = holds q := by
        intro q hq
        have : q ≠ base + test.length := by omega
        simp [holds, this]
      refine ⟨holds, p, ?_, hp, ?_⟩
      · exact (leads_next ht hat hh (by omega)).trans (hrest.layout.leads_congr hat.rest_at agree hleads).1
      · have hafter := (hrest.layout.leads_congr hat.rest_at agree hleads).2.1
        rw [allowed_congr rest _ agree] at hna
        simp only [Allowed, hh]
        rintro (h | h)
        · omega
        · exact hna h

theorem follows_iff_sealed {code : Code} {base : Nat} {chain : Chain} (hc : chain.Closed)
    (hat : code.At base chain.layout) : (∀ holds, chain.Follows code holds base) ↔ chain.Sealed := by
  constructor
  · intro h
    refine Classical.byContradiction fun hs => ?_
    obtain ⟨holds, p, hleads, hp, hna⟩ := exists_astray hc hat hs
    rcases (h holds).only p hleads with he | ha
    · exact hp he
    · exact hna ha
  · exact fun hs holds => follows_of_sealed hc hs hat holds

end Chain

/-! ## The chains of a program -/

theorem lowerStmt_conditional {c : Context} {n : Node} {s : State} (hn : n.isConditional = true)
    (fresh : s.visits[n.id]? ≠ some .emitted) : (lowerStmt c n).run s = (lowerLink c n >>= finishChain).run s := by
  cases n with
  | ifThen tag test body =>
    rw [lowerStmt, once_of_fresh tag.id fresh]
    simp only [lowerLink, bind_assoc, pure_bind]
  | ifElse tag test body other =>
    rw [lowerStmt, once_of_fresh tag.id fresh]
    simp only [lowerLink, bind_assoc, pure_bind]
  | ifElseIf tag test body link =>
    rw [lowerStmt, once_of_fresh tag.id fresh]
    simp only [lowerLink, bind_assoc, pure_bind]
  | _ => cases hn

/-- The chain of a condition, wherever its code stands in a function: whatever its conditions give, the walk
passes no block but that of the first test that holds, and comes behind the chain unless it returns there,
exactly if no block with more of the chain behind it ends in a return instruction and can yet be left at its
end. -/
theorem walk_of_conditional {c : Context} {n : Node} {s s' : State} {code : Code} (hn : n.isConditional = true)
    (fresh : s.visits[n.id]? ≠ some .emitted) (h : (lowerStmt c n).run s = .ok code s') :
    ∃ chain, (lowerLink c n).run s = .ok chain s' ∧ chain.code = .ok code ∧
      ∀ before after : Code,
        (∀ holds, chain.Follows (before ++ code ++ after) holds before.length) ↔ chain.Sealed := by
  rw [lowerStmt_conditional hn fresh] at h
  obtain ⟨chain, s₁, hlink, hfinish⟩ := bind_eq_ok.mp h
  rw [finishChain, chain.code_eq_layout] at hfinish
  obtain ⟨rfl, rfl⟩ := pure_eq_ok.mp hfinish
  refine ⟨chain, hlink, chain.code_eq_layout, fun before after => ?_⟩
  exact Chain.follows_iff_sealed (lowerLink_closed c n s chain s₁ hlink) (Code.at_middle before _ after)

private def exampleTag (id : NodeId) : Tag := ⟨id, .zero⟩

def returnsInBothBranches : Node :=
  .ifElse (exampleTag 17) (.comparison (exampleTag 2) (.int (exampleTag 0) 1) ">" (.int (exampleTag 1) 0))
    (.block (exampleTag 13) [.ifElse (exampleTag 12)
      (.comparison (exampleTag 5) (.int (exampleTag 3) 1) ">" (.int (exampleTag 4) 2))
      (.block (exampleTag 8) [.ret (exampleTag 7) (.int (exampleTag 6) 1)])
      (.block (exampleTag 11) [.ret (exampleTag 10) (.int (exampleTag 9) 3)])])
    (.block (exampleTag 16) [.print (exampleTag 15) [.int (exampleTag 14) 2]])

theorem walk_of_returnsInBothBranches :
    ∃ code s', (lowerStmt ⟨.initial, {}, 0, [0]⟩ returnsInBothBranches).run { frames := .ofTable .initial } =
        .ok code s' ∧
      ∃ chain, (lowerLink ⟨.initial, {}, 0, [0]⟩ returnsInBothBranches).run { frames := .ofTable .initial } =
          .ok chain s' ∧ chain.code = .ok code ∧
        ∀ before after : Code,
          (∀ holds, chain.Follows (before ++ code ++ after) holds before.length) ↔ chain.Sealed :=
  ⟨_, _, rfl, walk_of_conditional rfl (by decide) rfl⟩

/-- The chain of `if (1 > 0) { if (1 > 2) { return 1 } } else { print(2) }`: the outer block ends in a return
instruction, so no jump follows it, but where the inner condition fails the block is left at its end. -/
def returnsInOneBranch : Chain :=
  .branch [.ldv (.int 0), .ldv (.int 1), .gt] [.ldv (.int 2), .ldv (.int 1), .gt, .bf 3, .ldv (.int 1), .ret]
    (.otherwise [.ldv (.int 2), .prn])

/-- The walk runs from the block of a condition into its `else`. -/
theorem not_follows_returnsInOneBranch :
    (compile {} "if (1 > 0) { if (1 > 2) { return 1 } } else { print(2) }".toList).result.toOption.map
        Assembly.lines =
      some (FunctionCode.lines ⟨0, mainName, 0, 0, returnsInOneBranch.layout ++ [.hlt]⟩) ∧
    ¬ ∀ holds, returnsInOneBranch.Follows (returnsInOneBranch.layout ++ [.hlt]) holds 0 := by
  refine ⟨by decide +kernel, fun h => ?_⟩
  have closed : returnsInOneBranch.Closed := by
    have inner : Code.Closed [.bf 3, .ldv (.int 1), .ret] :=
      .cons_jump (b := [.ldv (.int 1)] ++ [.ret])
        (Code.Closed.append (Code.straight_singleton.mpr rfl).closed Code.closed_ret)
        3 rfl rfl (by decide) (by decide)
    have test : Code.Straight [.ldv (.int 2), .ldv (.int 1), .gt] := by unfold Code.Straight; decide
    exact .branch (by unfold Code.Straight; decide) (test.closed.append inner)
      (.otherwise (Code.Straight.closed (by unfold Code.Straight; decide)))
  have hat : Code.At (returnsInOneBranch.layout ++ [.hlt]) 0 returnsInOneBranch.layout :=
    Code.at_middle [] returnsInOneBranch.layout [.hlt]
  have := ((Chain.follows_iff_sealed closed hat).mp h).1 rfl (by decide)
  refine this ⟨fun _ => false, ?_⟩
  exact .head ⟨by decide, _, rfl, rfl⟩ (.head ⟨by decide, _, rfl, rfl⟩ (.head ⟨by decide, _, rfl, rfl⟩
    (.head ⟨by decide, _, rfl, rfl⟩ .refl)))

end Lowering
end Bies
