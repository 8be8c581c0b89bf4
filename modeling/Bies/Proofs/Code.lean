import Bies.Proofs.Run
import Bies.Proofs.Chain

/-!
# Straight code and closed code

The code of a value is straight: it has no jumps and does not end the function. The code of a statement
is closed: its jumps go forward and not beyond its end, and it does not halt the machine.
-/

namespace Bies

def Instruction.isStraight : Instruction → Bool
  | .bf _ | .br _ | .ret | .hlt => false
  | _ => true

def Instruction.isHlt : Instruction → Bool
  | .hlt => true
  | _ => false

def Instruction.isLoad : Instruction → Bool
  | .bld .. | .ldf .. => true
  | _ => false

def Instruction.isOperation : Instruction → Bool
  | .add | .sub | .mul | .div | .pow | .cat | .eq | .gt | .gte | .lt | .lte => true
  | _ => false

theorem Instruction.isStraight_of_isLoad {i : Instruction} (h : i.isLoad = true) : i.isStraight = true := by
  cases i <;> first | rfl | cases h

theorem Instruction.isStraight_of_isOperation {i : Instruction} (h : i.isOperation = true) : i.isStraight = true := by
  cases i <;> first | rfl | cases h

namespace Code

def Straight (code : Code) : Prop := ∀ i ∈ code, i.isStraight = true

structure Closed (code : Code) : Prop where
  forward : ∀ {index : Nat} {i : Instruction} {offset : Int}, code[index]? = some i → i.offset? = some offset →
    0 < offset ∧ index + offset ≤ code.length
  running : ∀ i ∈ code, i.isHlt = false

theorem straight_nil : Straight [] := by simp [Straight]

theorem straight_append {a b : Code} : Straight (a ++ b) ↔ Straight a ∧ Straight b := by
  simp [Straight, or_imp, forall_and]

theorem straight_cons {i : Instruction} {code : Code} :
    Straight (i :: code) ↔ i.isStraight = true ∧ Straight code := by
  simp [Straight]

theorem straight_singleton {i : Instruction} : Straight [i] ↔ i.isStraight = true := by simp [Straight]

theorem Straight.closed {code : Code} (h : Straight code) : Closed code := by
  constructor
  · intro index i offset hi ho
    have := h i (List.mem_of_getElem? hi)
    cases i <;> simp [Instruction.isStraight, Instruction.offset?] at this ho
  · intro i hi
    have := h i hi
    cases i <;> simp [Instruction.isStraight, Instruction.isHlt] at this ⊢

theorem closed_nil : Closed [] := straight_nil.closed

theorem Closed.append {a b : Code} (ha : Closed a) (hb : Closed b) : Closed (a ++ b) := by
  constructor
  · intro index i offset hi ho
    rw [List.length_append]
    by_cases h : index < a.length
    · rw [List.getElem?_append_left h] at hi
      have := ha.forward hi ho
      omega
    · rw [List.getElem?_append_right (by omega)] at hi
      have := hb.forward hi ho
      omega
  · intro i hi
    rcases List.mem_append.mp hi with h | h
    · exact ha.running i h
    · exact hb.running i h

theorem Closed.cons_jump {b : Code} (hb : Closed b) {i : Instruction} (offset : Int) (hi : i.isHlt = false)
    (ho : i.offset? = some offset) (h₀ : 0 < offset) (h₁ : offset ≤ b.length + 1) : Closed (i :: b) := by
  constructor
  · intro index j o hj hoj
    cases index with
    | zero =>
      obtain rfl : i = j := by simpa using hj
      obtain rfl : offset = o := by simpa [ho] using hoj
      simp; omega
    | succ index =>
      have := hb.forward (by simpa using hj) hoj
      simp; omega
  · intro j hj
    rcases List.mem_cons.mp hj with rfl | h
    · exact hi
    · exact hb.running j h

theorem closed_ret : Closed [.ret] := by
  constructor
  · intro index i offset hi ho
    have : i = .ret := by simpa using List.mem_of_getElem? hi
    subst this; simp [Instruction.offset?] at ho
  · simp [Instruction.isHlt]

/-! ## Code inside other code -/

/-- The code `part` stands in `code` from the position `base` on. -/
def At (code : Code) (base : Nat) (part : Code) : Prop :=
  ∀ (index : Nat) (i : Instruction), part[index]? = some i → code[base + index]? = some i

theorem at_middle (before part after : Code) : At (before ++ part ++ after) before.length part := by
  intro index i h
  have : index < part.length := (List.getElem?_eq_some_iff.mp h).1
  rw [List.append_assoc, List.getElem?_append_right (by omega), Nat.add_sub_cancel_left,
    List.getElem?_append_left this, h]

section
variable {code a b : Code} {base : Nat} {i : Instruction}

theorem At.left (h : At code base (a ++ b)) : At code base a := by
  intro index i hi
  exact h _ _ (by rw [List.getElem?_append_left (List.getElem?_eq_some_iff.mp hi).1, hi])

theorem At.right (h : At code base (a ++ b)) : At code (base + a.length) b := by
  intro index i hi
  rw [Nat.add_assoc]
  exact h _ _ (by rw [List.getElem?_append_right (by omega), Nat.add_sub_cancel_left, hi])

theorem At.head (h : At code base (i :: b)) : code[base]? = some i := h 0 i rfl

theorem At.tail (h : At code base (i :: b)) : At code (base + 1) b := At.right (a := [i]) h

theorem At.get (h : At code base a) {p : Nat} (hl : base ≤ p) (hr : p < base + a.length) :
    ∃ i, a[p - base]? = some i ∧ code[p]? = some i := by
  have hlt : p - base < a.length := by omega
  refine ⟨a[p - base], List.getElem?_eq_getElem hlt, ?_⟩
  have := h _ _ (List.getElem?_eq_getElem hlt)
  rwa [show base + (p - base) = p by omega] at this

end

end Code

namespace Lowering

open Code

/-! ## Values -/

theorem loadName_isLoad (c : Context) (name : String) (span : Span) :
    Gives (loadName c name span) fun i => i.isLoad = true := by
  unfold loadName
  refine .bind_any fun s => ?_
  split
  · exact .ret rfl
  · split
    · exact .ret rfl
    · split
      · exact .bind_any fun _ => .bind_any fun _ => .ret rfl
      · exact .fail _

theorem arithmetic?_isOperation {op : String} {i : Instruction} (h : Instruction.arithmetic? op = some i) :
    i.isOperation = true := by
  unfold Instruction.arithmetic? at h
  split at h <;> cases h <;> rfl

theorem comparison?_isOperation {op : String} {i : Instruction} (h : Instruction.comparison? op = some i) :
    i.isOperation = true := by
  unfold Instruction.comparison? at h
  split at h <;> cases h <;> rfl

theorem arithmeticInstruction_eq_ok {c : Context} {tag : Tag} {left : Node} {op : String} {right : Node}
    {i : Instruction} {s s' : State} (h : (arithmeticInstruction c tag left op right).run s = .ok i s') :
    i.isOperation = true ∧ s = s' := by
  unfold arithmeticInstruction at h
  split at h
  · exact absurd h throw_ne_ok
  next i hi =>
    obtain ⟨_, _, hget, h⟩ := bind_eq_ok.mp h
    obtain ⟨rfl, rfl⟩ := get_eq_ok.mp hget
    obtain ⟨rfl, rfl⟩ := pure_eq_ok.mp h
    refine ⟨?_, rfl⟩
    split
    · rfl
    · exact arithmetic?_isOperation hi

theorem arithmeticInstruction_isOperation (c : Context) (tag : Tag) (left : Node) (op : String) (right : Node) :
    Gives (arithmeticInstruction c tag left op right) fun i => i.isOperation = true :=
  fun _ _ _ h => (arithmeticInstruction_eq_ok h).1

theorem finishCall_straight (c : Context) (tag : Tag) (name : String) (args : List Node) :
    Gives (finishCall c tag name args) Straight := by
  unfold finishCall
  refine .bind_any fun s => ?_
  split
  · split
    · exact .ret (by simp [Straight, Instruction.isStraight])
    · refine .bind_any fun slot => .ret ?_
      split <;> simp [Straight, Instruction.isStraight]
  · refine .bind (loadName_isLoad c name tag.span) fun i hi => ?_
    have hcall : Straight [i, .app args.length] :=
      straight_cons.mpr ⟨i.isStraight_of_isLoad hi, straight_singleton.mpr rfl⟩
    split
    · exact .bind_any fun _ => .ret hcall
    · exact .ret hcall

mutual

theorem lowerValue_straight (c : Context) : ∀ n, Gives (lowerValue c n) Straight
  | .ident tag name => by
    unfold lowerValue
    exact .bind_any fun _ => .bind (loadName_isLoad c name tag.span) fun i hi =>
      .ret (straight_singleton.mpr (i.isStraight_of_isLoad hi))
  | .binary tag left op right => by
    unfold lowerValue
    exact .bind_any fun _ => .bind (arithmeticInstruction_isOperation c tag left op right) fun i hi =>
      .bind (lowerValue_straight c right) fun a ha => .bind (lowerValue_straight c left) fun b hb =>
        .ret (straight_append.mpr
          ⟨straight_append.mpr ⟨ha, hb⟩, straight_singleton.mpr (i.isStraight_of_isOperation hi)⟩)
  | .comparison tag left op right => by
    unfold lowerValue
    refine .bind_any fun _ => ?_
    split
    · exact .fail _
    next i hi =>
      exact .bind (lowerValue_straight c right) fun a ha => .bind (lowerValue_straight c left) fun b hb =>
        .ret (straight_append.mpr
          ⟨straight_append.mpr ⟨ha, hb⟩,
            straight_singleton.mpr (i.isStraight_of_isOperation (comparison?_isOperation hi))⟩)
  | .call tag name args => by
    unfold lowerValue
    exact .bind_any fun _ => .bind (lowerValues_straight c args) fun a ha =>
      .bind (finishCall_straight c tag name args) fun b hb => .ret (straight_append.mpr ⟨ha, hb⟩)
  | .access tag name index => by
    unfold lowerValue
    exact .bind_any fun _ => .bind (lowerValue_straight c index) fun a ha =>
      .bind (loadName_isLoad c name tag.span) fun i hi =>
        .ret (straight_append.mpr
          ⟨ha, straight_cons.mpr ⟨i.isStraight_of_isLoad hi, straight_singleton.mpr rfl⟩⟩)
  | .lambda tag params body f => by
    unfold lowerValue
    exact .bind_any fun _ => .ret (by simp [Straight, Instruction.isStraight])
  | .decl .. | .letIn .. | .ifThen .. | .ifElse .. | .ifElseIf .. | .block .. | .funDecl .. | .print ..
  | .ret .. | .list .. | .int .. | .float .. | .str .. => by
    unfold lowerValue
    refine .bind_any fun _ => ?_
    split
    · split
      · exact .ret (by simp [Straight, Instruction.isStraight])
      · exact .fail _
    · exact .fail _

theorem lowerValues_straight (c : Context) : ∀ ns, Gives (lowerValues c ns) Straight
  | [] => by
    unfold lowerValues
    exact .ret straight_nil
  | n :: rest => by
    unfold lowerValues
    exact .bind (lowerValue_straight c n) fun a ha => .bind (lowerValues_straight c rest) fun b hb =>
      .ret (straight_append.mpr ⟨ha, hb⟩)

end

/-! ## Statements -/

theorem Chain.leave_closed (body : Code) (rest : Chain) {after : Code} (h : Closed after) :
    Closed (leave body rest after.length ++ after) := by
  unfold leave
  split
  · exact h
  · exact h.cons_jump _ rfl rfl (by omega) (by omega)

inductive Chain.Closed : Chain → Prop
  | done : Closed .done
  | otherwise {code : Code} : code.Closed → Closed (.otherwise code)
  | branch {test body : Code} {rest : Chain} : test.Straight → body.Closed → Closed rest →
    Closed (.branch test body rest)

theorem Chain.Closed.layout {chain : Chain} (h : chain.Closed) : chain.layout.Closed := by
  induction h with
  | done => exact closed_nil
  | otherwise h => exact h
  | @branch test body rest ht hb _ ih =>
    refine ht.closed.append (.cons_jump ?_
      (body.length + (leave body rest rest.layout.length).length + 1) rfl rfl (by omega) ?_)
    · rw [List.append_assoc]
      exact hb.append (leave_closed body rest ih)
    · simp only [List.length_append]
      omega

theorem finishChain_closed {chain : Chain} (h : chain.Closed) : Gives (finishChain chain) Code.Closed := by
  unfold finishChain
  rw [Chain.code_eq_layout]
  exact .ret h.layout

theorem once_gives {P : Code → Prop} {id : NodeId} {lower : Lowering Code} (h₀ : P []) (h : Gives lower P) :
    Gives (once id lower) P := by
  unfold once
  refine .bind_any fun s => .bind_any fun _ => ?_
  split
  · exact .ret h₀
  · exact h

theorem once_of_fresh (id : NodeId) {lower : Lowering Code} {s : State} (fresh : s.visits[id]? ≠ some .emitted) :
    (once id lower).run s = (visit id .emitted >>= fun _ => lower).run s := by
  unfold once
  show (visit id .emitted >>= fun _ => if s.visits[id]? = some .emitted then pure [] else lower).run s = _
  simp only [if_neg fresh]

theorem skip_closed (c : Context) (n : Node) : Gives (skip c n) Code.Closed := by
  unfold skip
  exact .bind_any fun _ => .bind_any fun _ => .ret closed_nil

theorem closed_of_value {x : Lowering Code} (h : Gives x Straight) : Gives x Code.Closed :=
  fun s a s' hs => (h s a s' hs).closed

mutual

theorem lowerStmt_closed (c : Context) : ∀ n, Gives (lowerStmt c n) Code.Closed
  | .decl tag constant name value => by
    unfold lowerStmt
    exact once_gives closed_nil (.bind (lowerValue_straight c value) fun a ha => .bind_any fun slot =>
      .ret (straight_append.mpr ⟨ha, straight_singleton.mpr rfl⟩).closed)
  | .letIn tag decls body => by
    unfold lowerStmt
    exact once_gives closed_nil (.bind (lowerStmts_closed c decls) fun a ha =>
      .bind (lowerStmt_closed c body) fun b hb => .ret (ha.append hb))
  | .block tag statements => by
    unfold lowerStmt
    exact once_gives closed_nil (lowerStmts_closed c statements)
  | .ifThen tag test body => by
    unfold lowerStmt
    exact once_gives closed_nil (.bind (lowerValue_straight c test) fun t ht =>
      .bind (lowerStmt_closed c body) fun b hb => finishChain_closed (.branch ht hb .done))
  | .ifElse tag test body other => by
    unfold lowerStmt
    exact once_gives closed_nil (.bind (lowerValue_straight c test) fun t ht =>
      .bind (lowerStmt_closed c body) fun b hb => .bind (lowerStmt_closed c other) fun o ho =>
        finishChain_closed (.branch ht hb (.otherwise ho)))
  | .ifElseIf tag test body link => by
    unfold lowerStmt
    exact once_gives closed_nil (.bind (lowerValue_straight c test) fun t ht =>
      .bind (lowerStmt_closed c body) fun b hb => .bind (lowerLink_closed c link) fun r hr =>
        finishChain_closed (.branch ht hb hr))
  | .print tag args => by
    unfold lowerStmt
    exact once_gives closed_nil (.bind (lowerValues_straight c args) fun a ha =>
      .ret (straight_append.mpr ⟨ha, straight_singleton.mpr rfl⟩).closed)
  | .ret tag value => by
    unfold lowerStmt
    refine once_gives closed_nil (.bind (lowerValue_straight c value) fun a ha => .ret ?_)
    split
    · exact ha.closed
    · exact ha.closed.append closed_ret
  | .call tag name args => by
    unfold lowerStmt
    exact once_gives closed_nil (closed_of_value (lowerValue_straight c _))
  | .binary tag left op right => by
    unfold lowerStmt
    exact once_gives closed_nil (closed_of_value (lowerValue_straight c _))
  | .comparison tag left op right => by
    unfold lowerStmt
    exact once_gives closed_nil (closed_of_value (lowerValue_straight c _))
  | .funDecl .. => by
    unfold lowerStmt
    exact once_gives closed_nil (.ret closed_nil)
  | .lambda .. | .access .. | .list .. | .int .. | .float .. | .str .. | .ident .. => by
    unfold lowerStmt
    exact once_gives closed_nil (skip_closed c _)

theorem lowerStmts_closed (c : Context) : ∀ ns, Gives (lowerStmts c ns) Code.Closed
  | [] => by
    unfold lowerStmts
    exact .ret closed_nil
  | n :: rest => by
    unfold lowerStmts
    exact .bind (lowerStmt_closed c n) fun a ha => .bind (lowerStmts_closed c rest) fun b hb =>
      .ret (ha.append hb)

theorem lowerLink_closed (c : Context) : ∀ n, Gives (lowerLink c n) Chain.Closed
  | .ifThen tag test body => by
    unfold lowerLink
    exact .bind_any fun _ => .bind (lowerValue_straight c test) fun t ht =>
      .bind (lowerStmt_closed c body) fun b hb => .ret (.branch ht hb .done)
  | .ifElse tag test body other => by
    unfold lowerLink
    exact .bind_any fun _ => .bind (lowerValue_straight c test) fun t ht =>
      .bind (lowerStmt_closed c body) fun b hb => .bind (lowerStmt_closed c other) fun o ho =>
        .ret (.branch ht hb (.otherwise ho))
  | .ifElseIf tag test body link => by
    unfold lowerLink
    exact .bind_any fun _ => .bind (lowerValue_straight c test) fun t ht =>
      .bind (lowerStmt_closed c body) fun b hb => .bind (lowerLink_closed c link) fun r hr =>
        .ret (.branch ht hb hr)
  | .decl .. | .letIn .. | .binary .. | .comparison .. | .block .. | .funDecl .. | .lambda .. | .call ..
  | .print .. | .ret .. | .access .. | .list .. | .int .. | .float .. | .str .. | .ident .. => by
    unfold lowerLink
    exact .fail _

end

end Lowering
theorem Assembly.exists_of_ofTable {table : FunctionTable} {options : Options} {assembly : Assembly}
    (h : (Assembly.ofTable table options).result = .ok assembly) :
    ∃ last, (Lowering.lower table options).run { frames := .ofTable table } = .ok assembly last ∧
      (Lowering.lowerFunctions table options table.records).run { frames := .ofTable table } =
        .ok assembly.functions last := by
  obtain ⟨last, hrun⟩ := Outcome.ofRun_eq_ok h
  obtain ⟨functions, s, hfunctions, hrest⟩ := bind_eq_ok.mp hrun
  obtain ⟨_, _, hget, hrest⟩ := bind_eq_ok.mp hrest
  obtain ⟨rfl, rfl⟩ := get_eq_ok.mp hget
  obtain ⟨rfl, rfl⟩ := pure_eq_ok.mp hrest
  exact ⟨s, hrun, hfunctions⟩

end Bies
