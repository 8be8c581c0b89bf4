import Bies.Proofs.Machine
import Bies.Proofs.PlainLowering

/-!
# The code of numeric statements

Plain lowering of numeric nodes in a table with no function but `main`: the code of a value leaves the
value on the stack, and the code of a statement does what the statement does.
-/

namespace Bies

def Frame.Numeric (F : Frame) : Prop := ∀ b ∈ F, ∀ n, b.value = some n → n.isNumeric = true

theorem Frame.Numeric.bind {F : Frame} (h : F.Numeric) (name : String) {value : Option Node}
    (hv : ∀ n, value = some n → n.isNumeric = true) : (F.bind name value).2.Numeric :=
  Frame.Values.bind h name hv

theorem Frame.Numeric.value? {F : Frame} (h : F.Numeric) {slot : Nat} {n : Node} (hn : F.value? slot = some n) :
    n.isNumeric = true :=
  Frame.Values.value? h hn

theorem Frames.resolve?_main (F : Frame) (name : String) :
    (Frames.mk [F]).resolve? name [0] = (F.slot? name).map fun slot => ⟨0, slot, F.value? slot⟩ := by
  unfold Frames.resolve? Frames.resolve? Frames.get?
  cases h : F.slot? name <;> simp [h]

theorem Frames.bind_main (F : Frame) (name : String) (value : Option Node) :
    (Frames.mk [F]).bind 0 name value = ((F.bind name value).1, ⟨[(F.bind name value).2]⟩) := rfl

namespace Lowering

structure InMain (c : Context) : Prop where
  function : c.function = 0
  chain : c.chain = [0]
  table : ∀ {name}, name ≠ mainName → c.table.get? name = none

def FromFrame {α : Type} (F : Frame) (x : Lowering α) (Q : Frame → α → Prop) : Prop :=
  ∀ s a s', s.frames = ⟨[F]⟩ → x.run s = .ok a s' → ∃ F', s'.frames = ⟨[F']⟩ ∧ F'.Numeric ∧ Q F' a

section
variable {α β : Type} {F : Frame} {x : Lowering α} {k : α → Lowering β} {Q : Frame → α → Prop}
  {R : Frame → β → Prop}

theorem FromFrame.bind (hx : FromFrame F x Q) (hk : ∀ F' a, F'.Numeric → Q F' a → FromFrame F' (k a) R) :
    FromFrame F (x >>= k) R := by
  intro s b s' hs hrun
  obtain ⟨a, s₁, h₁, h₂⟩ := bind_eq_ok.mp hrun
  obtain ⟨F', hs₁, hnum, hQ⟩ := hx s a s₁ hs h₁
  exact hk F' a hnum hQ s₁ b s' hs₁ h₂

theorem FromFrame.ret {a : α} (hF : F.Numeric) (h : Q F a) : FromFrame F (pure a) Q := by
  intro s b s' hs hrun
  obtain ⟨rfl, rfl⟩ := pure_eq_ok.mp hrun
  exact ⟨F, hs, hF, h⟩

theorem FromFrame.imp {Q' : Frame → α → Prop} (h : FromFrame F x Q) (himp : ∀ F' a, Q F' a → Q' F' a) :
    FromFrame F x Q' := by
  intro s a s' hs hrun
  obtain ⟨F', hs', hnum, hQ⟩ := h s a s' hs hrun
  exact ⟨F', hs', hnum, himp F' a hQ⟩

theorem FromFrame.fail (e : CompileError) : FromFrame F (throw e) Q := fun _ _ _ _ h => absurd h throw_ne_ok

theorem FromFrame.read {k : State → Lowering β} (h : ∀ s, s.frames = ⟨[F]⟩ → FromFrame F (k s) R) :
    FromFrame F (get >>= k) R := by
  intro s b s' hs hrun
  exact h s hs s b s' hs hrun

theorem FromFrame.aside {change : State → State} (hF : F.Numeric) (h : ∀ s, (change s).frames = s.frames) :
    FromFrame F (modify change) fun F' _ => F' = F := by
  intro s a s' hs hrun
  obtain rfl := modify_eq_ok.mp hrun
  exact ⟨F, by rw [h, hs], hF, rfl⟩

end

section
variable {c : Context} (hc : InMain c)
include hc

theorem fromFrame_bind {F : Frame} (hF : F.Numeric) (name : String) {value : Option Node}
    (hv : ∀ n, value = some n → n.isNumeric = true) :
    FromFrame F (bind c name value) fun F' slot => F' = (F.bind name value).2 ∧ slot = (F.bind name value).1 := by
  intro s slot s' hs hrun
  have heq := modifyGet_eq_ok.mp hrun
  rw [hc.function, hs, Frames.bind_main] at heq
  cases heq
  exact ⟨_, rfl, hF.bind name hv, rfl, rfl⟩

theorem isTextual_of_numeric {F : Frame} (hF : F.Numeric) : ∀ (limit : Nat) (n : Node), n.isNumeric = true →
    isTextual c ⟨[F]⟩ limit n = false
  | 0, _, _ => rfl
  | limit + 1, n, hn => by
    cases n with
    | ident tag name =>
      simp only [isTextual]
      rw [hc.chain, Frames.resolve?_main]
      cases hslot : F.slot? name with
      | none => rfl
      | some slot =>
        cases hvalue : F.value? slot with
        | none => simp [hvalue]
        | some v => simp [hvalue, isTextual_of_numeric hF limit v (hF.value? hvalue)]
    | binary tag left op right =>
      simp only [Node.isNumeric, Bool.and_eq_true] at hn
      simp [isTextual, isTextual_of_numeric hF limit left hn.1, isTextual_of_numeric hF limit right hn.2]
    | _ => first | rfl | simp [Node.isNumeric] at hn

theorem loadName_fromFrame {F : Frame} (hF : F.Numeric) {name : String} (hname : name ≠ mainName) (span : Span) :
    FromFrame F (loadName c name span) fun F' i => F.Extends F' ∧ ∃ slot, F'.slot? name = some slot ∧
      i = .bld 0 slot := by
  unfold loadName
  refine .read fun s hs => ?_
  rw [hs, hc.chain, Frames.resolve?_main, hc.table hname]
  cases hslot : F.slot? name with
  | some slot => exact .ret hF ⟨.refl F, slot, hslot, rfl⟩
  | none =>
    dsimp only [Option.map_none]
    split
    · refine .bind (fromFrame_bind hc hF name (by simp)) fun F' slot hF' ⟨hframe, hslot⟩ => ?_
      refine .bind (.aside hF' fun _ => rfl) fun F'' _ hF'' heq => ?_
      subst hframe hslot heq
      exact .ret hF'' ⟨F.bind_extends name none, _, F.slot?_bind name none, rfl⟩
    · exact .fail _

omit hc in
theorem operator?_of_arithmetic? {op : String} {i : Instruction} (h : Instruction.arithmetic? op = some i) :
    i.operator? = some op := by
  unfold Instruction.arithmetic? at h
  split at h <;> simp at h <;> subst h <;> rfl

omit hc in
theorem operator?_of_comparison? {op : String} {i : Instruction} (h : Instruction.comparison? op = some i) :
    i.operator? = some op := by
  unfold Instruction.comparison? at h
  split at h <;> simp at h <;> subst h <;> rfl

theorem arithmeticInstruction_fromFrame {F : Frame} (hF : F.Numeric) (tag : Tag) {left right : Node} (op : String)
    (hl : left.isNumeric = true) (hr : right.isNumeric = true) :
    FromFrame F (arithmeticInstruction c tag left op right) fun F' i => F' = F ∧ i.operator? = some op := by
  unfold arithmeticInstruction
  split
  · exact .fail _
  next i hi =>
    refine .read fun s hs => ?_
    dsimp only
    -- no operand is a text, so `+` is a sum
    rw [hs, isTextual_of_numeric hc hF maxTextual left hl, isTextual_of_numeric hc hF maxTextual right hr]
    refine .ret hF ⟨rfl, ?_⟩
    simpa using operator?_of_arithmetic? hi

variable {V : Type} (A : Arithmetic V)

theorem value_pushes : ∀ (n : Node) {F : Frame}, n.isNumeric = true → F.Numeric →
    FromFrame F (Plain.value c n) fun F' code => Pushes A F F' code (n.eval A)
  | .int tag k, F, _, hF => by
    unfold Plain.value
    exact .ret hF (pushes_literal rfl)
  | .float tag x, F, _, hF => by
    unfold Plain.value
    exact .ret hF (pushes_literal rfl)
  | .ident tag name, F, hn, hF => by
    unfold Plain.value
    refine .bind (loadName_fromFrame hc hF (by simpa [Node.isNumeric] using hn) tag.span) fun F' i hF' h => ?_
    obtain ⟨hext, slot, hslot, rfl⟩ := h
    exact .ret hF' (pushes_variable hext hslot)
  | .binary tag left op right, F, hn, hF => by
    simp only [Node.isNumeric, Bool.and_eq_true] at hn
    unfold Plain.value
    refine .bind (arithmeticInstruction_fromFrame hc hF tag op hn.1 hn.2) fun F₀ i hF₀ h => ?_
    obtain ⟨rfl, hop⟩ := h
    exact .bind (value_pushes right hn.2 hF₀) fun F₁ b hF₁ hb => .bind (value_pushes left hn.1 hF₁)
      fun F₂ a hF₂ ha =>
      .ret hF₂ (hb.apply ha hop)
  | .comparison tag left op right, F, hn, hF => by
    simp only [Node.isNumeric, Bool.and_eq_true] at hn
    unfold Plain.value
    split
    · exact .fail _
    next i hi =>
      exact .bind (value_pushes right hn.2 hF) fun F₁ b hF₁ hb =>
        .bind (value_pushes left hn.1 hF₁) fun F₂ a hF₂ ha => .ret hF₂
          (hb.apply ha (operator?_of_comparison? hi))

omit hc in
theorem finishChain_fromFrame {F : Frame} (hF : F.Numeric) (chain : Chain) :
    FromFrame F (finishChain chain) fun F' code => F' = F ∧ code = chain.layout := by
  unfold finishChain
  rw [chain.code_eq_layout]
  exact .ret hF ⟨rfl, rfl⟩

omit hc in
theorem skip_fromFrame {F : Frame} (hF : F.Numeric) (n : Node) :
    FromFrame F (skip c n) fun F' code => Runs A F F' code fun σ => σ := by
  unfold skip
  refine .bind (.aside hF fun _ => rfl) fun F₁ _ hF₁ h₁ => .bind (.aside hF₁ fun _ => rfl)
    fun F₂ _ hF₂ h₂ => ?_
  subst h₁ h₂
  exact .ret hF₂ runs_nil

end

theorem values_singleton (c : Context) (n : Node) : Plain.values c [n] = Plain.value c n := by
  simp [Plain.values]

section
variable {V : Type} (A : Arithmetic V) {c : Context}

mutual

theorem stmt_runs (hc : InMain c) : ∀ (n : Node) {F : Frame}, n.isStatement = true → F.Numeric →
    FromFrame F (Plain.stmt c n) fun F' code => Runs A F F' code (n.exec A)
  | .decl tag constant name value, F, hn, hF => by
    simp only [Node.isStatement] at hn
    unfold Plain.stmt
    refine .bind (value_pushes hc A value hn hF) fun F₁ code hF₁ hcode =>
      .bind (fromFrame_bind hc hF₁ name (by rintro n ⟨⟩; exact hn)) fun F₂ slot hF₂ h => ?_
    obtain ⟨rfl, rfl⟩ := h
    exact .ret hF₂ (hcode.store name _)
  | .letIn tag decls body, F, hn, hF => by
    simp only [Node.isStatement, Bool.and_eq_true] at hn
    unfold Plain.stmt
    exact .bind (stmts_run hc decls hn.1 hF) fun F₁ a hF₁ ha => .bind (stmt_runs hc body hn.2 hF₁)
      fun F₂ b hF₂ hb =>
      .ret hF₂ (ha.seq hb)
  | .block tag statements, F, hn, hF => by
    simp only [Node.isStatement] at hn
    unfold Plain.stmt
    exact stmts_run hc statements hn hF
  | .ifThen tag test body, F, hn, hF => by
    simp only [Node.isStatement, Bool.and_eq_true] at hn
    unfold Plain.stmt
    refine .bind (value_pushes hc A test hn.1 hF) fun F₁ t hF₁ ht =>
      .bind (stmt_runs hc body hn.2 hF₁) fun F₂ b hF₂ hb => (finishChain_fromFrame hF₂ _).imp
        fun F₃ code h => ?_
    obtain ⟨rfl, rfl⟩ := h
    exact ht.branch hb .done runs_nil
  | .ifElse tag test body other, F, hn, hF => by
    simp only [Node.isStatement, Bool.and_eq_true] at hn
    unfold Plain.stmt
    refine .bind (value_pushes hc A test hn.1.1 hF) fun F₁ t hF₁ ht =>
      .bind (stmt_runs hc body hn.1.2 hF₁) fun F₂ b hF₂ hb => .bind (stmt_runs hc other hn.2 hF₂)
        fun F₃ o hF₃ ho =>
        (finishChain_fromFrame hF₃ _).imp fun F₄ code h => ?_
    obtain ⟨rfl, rfl⟩ := h
    exact ht.branch hb (.otherwise o) ho
  | .ifElseIf tag test body link, F, hn, hF => by
    simp only [Node.isStatement, Bool.and_eq_true] at hn
    unfold Plain.stmt
    refine .bind (value_pushes hc A test hn.1.1 hF) fun F₁ t hF₁ ht =>
      .bind (stmt_runs hc body hn.1.2 hF₁) fun F₂ b hF₂ hb => .bind (chain_runs hc link hn.2 hF₂)
        fun F₃ r hF₃ hr =>
        (finishChain_fromFrame hF₃ _).imp fun F₄ code h => ?_
    obtain ⟨rfl, rfl⟩ := h
    exact ht.branch hb _ hr
  | .print tag [value], F, hn, hF => by
    simp only [Node.isStatement] at hn
    unfold Plain.stmt
    rw [values_singleton]
    exact .bind (value_pushes hc A value hn hF) fun F₁ a hF₁ ha => .ret hF₁ ha.print
  | .int .., F, _, hF | .float .., F, _, hF | .ident .., F, _, hF => by
    unfold Plain.stmt
    exact skip_fromFrame A hF _
  | .binary tag left op right, F, hn, hF => by
    unfold Plain.stmt
    exact (value_pushes hc A (.binary tag left op right) hn hF).imp fun F' code h => h.discard
  | .comparison tag left op right, F, hn, hF => by
    unfold Plain.stmt
    exact (value_pushes hc A (.comparison tag left op right) hn hF).imp fun F' code h => h.discard

theorem stmts_run (hc : InMain c) : ∀ (ns : List Node) {F : Frame}, Node.areStatements ns = true → F.Numeric →
    FromFrame F (Plain.stmts c ns) fun F' code => Runs A F F' code (Node.execAll A ns)
  | [], F, _, hF => by
    unfold Plain.stmts
    exact .ret hF runs_nil
  | n :: rest, F, hn, hF => by
    simp only [Node.areStatements, Bool.and_eq_true] at hn
    unfold Plain.stmts
    exact .bind (stmt_runs hc n hn.1 hF) fun F₁ a hF₁ ha => .bind (stmts_run hc rest hn.2 hF₁)
      fun F₂ b hF₂ hb =>
      .ret hF₂ (ha.seq hb)

theorem chain_runs (hc : InMain c) : ∀ (n : Node) {F : Frame}, n.isStatement = true → F.Numeric →
    FromFrame F (Plain.chain c n) fun F' chain => Runs A F F' chain.layout (n.exec A)
  | .ifThen tag test body, F, hn, hF => by
    simp only [Node.isStatement, Bool.and_eq_true] at hn
    unfold Plain.chain
    exact .bind (value_pushes hc A test hn.1 hF) fun F₁ t hF₁ ht =>
      .bind (stmt_runs hc body hn.2 hF₁) fun F₂ b hF₂ hb => .ret hF₂ (ht.branch hb .done runs_nil)
  | .ifElse tag test body other, F, hn, hF => by
    simp only [Node.isStatement, Bool.and_eq_true] at hn
    unfold Plain.chain
    exact .bind (value_pushes hc A test hn.1.1 hF) fun F₁ t hF₁ ht =>
      .bind (stmt_runs hc body hn.1.2 hF₁) fun F₂ b hF₂ hb => .bind (stmt_runs hc other hn.2 hF₂)
        fun F₃ o hF₃ ho =>
        .ret hF₃ (ht.branch hb (.otherwise o) ho)
  | .ifElseIf tag test body link, F, hn, hF => by
    simp only [Node.isStatement, Bool.and_eq_true] at hn
    unfold Plain.chain
    exact .bind (value_pushes hc A test hn.1.1 hF) fun F₁ t hF₁ ht =>
      .bind (stmt_runs hc body hn.1.2 hF₁) fun F₂ b hF₂ hb => .bind (chain_runs hc link hn.2 hF₂)
        fun F₃ r hF₃ hr =>
        .ret hF₃ (ht.branch hb _ hr)
  | .decl .., F, _, _ | .letIn .., F, _, _ | .binary .., F, _, _ | .comparison .., F, _, _ | .block .., F, _, _
  | .print .., F, _, _ | .int .., F, _, _ | .float .., F, _, _ | .ident .., F, _, _ => by
    unfold Plain.chain
    exact .fail _

end

end

end Lowering
end Bies
