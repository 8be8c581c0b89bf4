import Bies.Proofs.Machine

/-!
# The depth of the stack

The code of a value leaves the value on the stack, takes nothing that was there before and has no jump in it. A function
of the machine takes its arguments off the stack, so it has to be called with as many as it takes.
-/

namespace Bies

/-- How many values a straight instruction pops, and how many it pushes then. -/
def Instruction.stackUse? : Instruction → Option (Nat × Nat)
  | .ldv _ | .ldf _ | .bld .. | .inp => some (0, 1)
  | .bst .. | .prn => some (1, 0)
  | .add | .sub | .mul | .div | .pow | .cat | .eq | .gt | .gte | .lt | .lte | .ltk => some (2, 1)
  | .len => some (1, 1)
  | .app args => some (args + 1, 1)
  | .bf _ | .br _ | .ret | .hlt => none

namespace Code

/-- The depth of the stack behind straight code that starts at the depth `d` and never pops more than that. -/
def depth? : Code → (d : Nat) → Option Nat
  | [], d => some d
  | i :: rest, d => i.stackUse?.bind fun (pops, pushes) => if pops ≤ d then depth? rest (d - pops + pushes) else none

def Leaves (k : Nat) (code : Code) : Prop := ∀ d, code.depth? d = some (d + k)

variable {a b : Code} {i : Instruction} {j k : Nat}

theorem depth?_append (a b : Code) (d : Nat) : depth? (a ++ b) d = (a.depth? d).bind b.depth? := by
  induction a generalizing d with
  | nil => rfl
  | cons i a ih =>
    rw [List.cons_append, depth?, depth?]
    cases i.stackUse? with
    | none => rfl
    | some use =>
      dsimp only [Option.bind_some]
      split
      · exact ih _
      · rfl

theorem depth?_singleton {pops pushes d : Nat} (hi : i.stackUse? = some (pops, pushes)) (hd : pops ≤ d) :
    depth? [i] d = some (d - pops + pushes) := by
  rw [depth?, hi]
  exact if_pos hd

theorem leaves_nil : Leaves 0 [] := fun _ => rfl

theorem leaves_push (hi : i.stackUse? = some (0, 1)) : Leaves 1 [i] := fun d => depth?_singleton hi (Nat.zero_le d)

theorem Leaves.append (ha : a.Leaves j) (hb : b.Leaves k) : Leaves (j + k) (a ++ b) := by
  intro d
  rw [depth?_append, ha d, Option.bind_some, hb, Nat.add_assoc]

theorem Leaves.apply (ha : a.Leaves k) (hi : i.stackUse? = some (k, 1)) : Leaves 1 (a ++ [i]) := by
  intro d
  rw [depth?_append, ha d, Option.bind_some, depth?_singleton hi (by omega), Nat.add_sub_cancel]

theorem Leaves.pop (ha : a.Leaves (k + 1)) (hi : i.stackUse? = some (1, 0)) : Leaves k (a ++ [i]) := by
  intro d
  rw [depth?_append, ha d, Option.bind_some, depth?_singleton hi (by omega)]
  congr 1

theorem Straight.noRet (h : Straight a) : a.NoRet := by
  intro i hi
  have := h i hi
  cases i <;> simp_all [Instruction.isStraight, Instruction.isRet]

end Code

namespace Lowering

open Code

/-! ## Functions of the machine -/

def State.after {α : Type} (s : State) (x : Lowering α) : State :=
  match x.run s with
  | .ok _ s' | .error _ s' => s'

mutual

/-- The calls in a value that are lowered to functions of the machine, each with the number of its arguments. Which
they are depends on the names that are bound when the arguments have been lowered. -/
def builtinCalls (c : Context) : Node → State → List (String × Nat)
  | .binary tag left _ right, s | .comparison tag left _ right, s =>
    let s := s.after (visit tag.id .emitted)
    builtinCalls c right s ++ builtinCalls c left (s.after (lowerValue c right))
  | .call tag name args, s =>
    let s := s.after (visit tag.id .emitted)
    let here := if isBuiltin c (s.after (lowerValues c args)).frames name then [(name, args.length)] else []
    builtinCallsAll c args s ++ here
  | .access tag _ index, s => builtinCalls c index (s.after (visit tag.id .emitted))
  | _, _ => []

def builtinCallsAll (c : Context) : List Node → State → List (String × Nat)
  | [], _ => []
  | n :: rest, s => builtinCalls c n s ++ builtinCallsAll c rest (s.after (lowerValue c n))

end

def takesArguments (name : String) (args : Nat) : Bool := if name = lenName then args = 1 else args ≤ 1

variable {c : Context} {s s' : State} {code : Code}

theorem stackUse?_of_isLoad {i : Instruction} (h : i.isLoad = true) : i.stackUse? = some (0, 1) := by
  cases i <;> first | rfl | cases h

theorem stackUse?_of_isOperation {i : Instruction} (h : i.isOperation = true) : i.stackUse? = some (2, 1) := by
  cases i <;> first | rfl | cases h

theorem loadName_leaves {name : String} {span : Span} {i : Instruction} (h : (loadName c name span).run s = .ok i s') :
    Leaves 1 [i] :=
  leaves_push (stackUse?_of_isLoad (loadName_isLoad c name span _ _ _ h))

theorem finishCall_leaves {tag : Tag} {name : String} {args : List Node} {front : Code}
    (h : (finishCall c tag name args).run s = .ok code s') (hfront : front.Leaves args.length)
    (htakes : isBuiltin c s.frames name = true → takesArguments name args.length = true) :
    Leaves 1 (front ++ code) := by
  unfold finishCall at h
  obtain ⟨_, _, hget, h⟩ := bind_eq_ok.mp h
  obtain ⟨rfl, rfl⟩ := get_eq_ok.mp hget
  split at h
  next hbuiltin =>
    have htakes := htakes hbuiltin
    unfold takesArguments at htakes
    split at h
    next hlen =>
      obtain ⟨rfl, -⟩ := pure_eq_ok.mp h
      rw [if_pos hlen, decide_eq_true_eq] at htakes
      rw [htakes] at hfront
      exact hfront.apply rfl
    next hlen =>
      obtain ⟨slot, _, -, h⟩ := bind_eq_ok.mp h
      obtain ⟨rfl, -⟩ := pure_eq_ok.mp h
      rw [if_neg hlen, decide_eq_true_eq] at htakes
      have hread : Leaves 1 [.inp, .bst 0 slot, .bld 0 slot] :=
        ((leaves_push (i := .inp) rfl).pop (k := 0) (i := .bst 0 slot) rfl).append (leaves_push (i := .bld 0 slot) rfl)
      -- The prompt, if there is one, is printed before anything is read.
      rw [← List.append_assoc]
      refine Leaves.append (j := 0) ?_ hread
      cases args with
      | nil => simpa using hfront
      | cons arg rest =>
        have hone : (arg :: rest).length = 0 + 1 := by
          rw [List.length_cons] at htakes ⊢
          omega
        rw [hone] at hfront
        exact hfront.pop rfl
  next =>
    obtain ⟨load, _, hload, h⟩ := bind_eq_ok.mp h
    have hpush : Leaves 1 [load] := loadName_leaves hload
    obtain rfl : [load, .app args.length] = code := by
      split at h
      · obtain ⟨_, _, -, h⟩ := bind_eq_ok.mp h
        exact (pure_eq_ok.mp h).1
      · exact (pure_eq_ok.mp h).1
    have := (hfront.append hpush).apply (i := .app args.length) rfl
    simpa using this

theorem State.after_of_run {α : Type} {x : Lowering α} {a : α} (h : x.run s = .ok a s') : s.after x = s' := by
  rw [State.after, h]

mutual

theorem lowerValue_leaves : ∀ {n : Node} {s s' : State} {code : Code}, (lowerValue c n).run s = .ok code s' →
    (∀ call ∈ builtinCalls c n s, takesArguments call.1 call.2 = true) → code.Leaves 1
  | .ident tag name, s, s', code, h, _ => by
    unfold lowerValue at h
    obtain ⟨_, _, -, h⟩ := bind_eq_ok.mp h
    obtain ⟨i, _, hload, h⟩ := bind_eq_ok.mp h
    obtain ⟨rfl, -⟩ := pure_eq_ok.mp h
    exact loadName_leaves hload
  | .binary tag left op right, s, s', code, h, hcalls => by
    unfold lowerValue at h
    obtain ⟨_, s₁, hvisit, h⟩ := bind_eq_ok.mp h
    obtain ⟨i, _, harithmetic, h⟩ := bind_eq_ok.mp h
    obtain ⟨hi, rfl⟩ := arithmeticInstruction_eq_ok harithmetic
    obtain ⟨rightCode, s₂, hright, h⟩ := bind_eq_ok.mp h
    obtain ⟨leftCode, _, hleft, h⟩ := bind_eq_ok.mp h
    obtain ⟨rfl, -⟩ := pure_eq_ok.mp h
    rw [builtinCalls, State.after_of_run hvisit, State.after_of_run hright, List.forall_mem_append] at hcalls
    exact ((lowerValue_leaves hright hcalls.1).append (lowerValue_leaves hleft hcalls.2)).apply
      (stackUse?_of_isOperation hi)
  | .comparison tag left op right, s, s', code, h, hcalls => by
    unfold lowerValue at h
    obtain ⟨_, s₁, hvisit, h⟩ := bind_eq_ok.mp h
    split at h
    · exact absurd h throw_ne_ok
    next i hi =>
      obtain ⟨rightCode, s₂, hright, h⟩ := bind_eq_ok.mp h
      obtain ⟨leftCode, _, hleft, h⟩ := bind_eq_ok.mp h
      obtain ⟨rfl, -⟩ := pure_eq_ok.mp h
      rw [builtinCalls, State.after_of_run hvisit, State.after_of_run hright, List.forall_mem_append] at hcalls
      exact ((lowerValue_leaves hright hcalls.1).append (lowerValue_leaves hleft hcalls.2)).apply
        (stackUse?_of_isOperation (comparison?_isOperation hi))
  | .call tag name args, s, s', code, h, hcalls => by
    unfold lowerValue at h
    obtain ⟨_, s₁, hvisit, h⟩ := bind_eq_ok.mp h
    obtain ⟨front, s₂, hargs, h⟩ := bind_eq_ok.mp h
    obtain ⟨back, _, hcall, h⟩ := bind_eq_ok.mp h
    obtain ⟨rfl, -⟩ := pure_eq_ok.mp h
    rw [builtinCalls, State.after_of_run hvisit, State.after_of_run hargs, List.forall_mem_append] at hcalls
    refine finishCall_leaves hcall (lowerValues_leaves hargs hcalls.1) fun hbuiltin => ?_
    exact hcalls.2 (name, args.length) (by simp [hbuiltin])
  | .access tag name index, s, s', code, h, hcalls => by
    unfold lowerValue at h
    obtain ⟨_, s₁, hvisit, h⟩ := bind_eq_ok.mp h
    obtain ⟨front, s₂, hindex, h⟩ := bind_eq_ok.mp h
    obtain ⟨i, _, hload, h⟩ := bind_eq_ok.mp h
    obtain ⟨rfl, -⟩ := pure_eq_ok.mp h
    rw [builtinCalls, State.after_of_run hvisit] at hcalls
    have := ((lowerValue_leaves hindex hcalls).append (loadName_leaves hload)).apply (i := .ltk) rfl
    simpa using this
  | .lambda .., s, s', code, h, _ => by
    unfold lowerValue at h
    obtain ⟨_, _, -, h⟩ := bind_eq_ok.mp h
    obtain ⟨rfl, -⟩ := pure_eq_ok.mp h
    exact leaves_push rfl
  | .decl .., s, s', code, h, _ | .letIn .., s, s', code, h, _ | .ifThen .., s, s', code, h, _
  | .ifElse .., s, s', code, h, _ | .ifElseIf .., s, s', code, h, _ | .block .., s, s', code, h, _
  | .funDecl .., s, s', code, h, _ | .print .., s, s', code, h, _ | .ret .., s, s', code, h, _
  | .list .., s, s', code, h, _ | .int .., s, s', code, h, _ | .float .., s, s', code, h, _
  | .str .., s, s', code, h, _ => by
    unfold lowerValue at h
    obtain ⟨_, _, -, h⟩ := bind_eq_ok.mp h
    split at h
    · split at h
      · obtain ⟨rfl, -⟩ := pure_eq_ok.mp h
        exact leaves_push rfl
      · exact absurd h throw_ne_ok
    · exact absurd h throw_ne_ok

theorem lowerValues_leaves :
    ∀ {ns : List Node} {s s' : State} {code : Code}, (lowerValues c ns).run s = .ok code s' →
    (∀ call ∈ builtinCallsAll c ns s, takesArguments call.1 call.2 = true) → code.Leaves ns.length
  | [], s, s', code, h, _ => by
    unfold lowerValues at h
    obtain ⟨rfl, -⟩ := pure_eq_ok.mp h
    exact leaves_nil
  | n :: rest, s, s', code, h, hcalls => by
    unfold lowerValues at h
    obtain ⟨a, s₁, hn, h⟩ := bind_eq_ok.mp h
    obtain ⟨b, _, hrest, h⟩ := bind_eq_ok.mp h
    obtain ⟨rfl, -⟩ := pure_eq_ok.mp h
    rw [builtinCallsAll, State.after_of_run hn, List.forall_mem_append] at hcalls
    rw [List.length_cons, Nat.add_comm]
    exact (lowerValue_leaves hn hcalls.1).append (lowerValues_leaves hrest hcalls.2)

end

/-! ## Statements that return -/

theorem lowerStmt_ret {tag : Tag} {value : Node} (h : (lowerStmt c (.ret tag value)).run s = .ok code s') :
    s.visits[tag.id]? = some .emitted ∧ code = [] ∨
      ∃ valueCode, (lowerValue c value).run (s.after (visit tag.id .emitted)) = .ok valueCode s' ∧
        valueCode.NoRet ∧
        code = valueCode ++ [.ret] := by
  unfold lowerStmt at h
  by_cases hfresh : s.visits[tag.id]? = some .emitted
  · left
    unfold once at h
    obtain ⟨_, _, hget, h⟩ := bind_eq_ok.mp h
    obtain ⟨rfl, rfl⟩ := get_eq_ok.mp hget
    obtain ⟨_, _, -, h⟩ := bind_eq_ok.mp h
    rw [if_pos hfresh] at h
    exact ⟨hfresh, (pure_eq_ok.mp h).1.symm⟩
  · right
    rw [once_of_fresh tag.id hfresh] at h
    obtain ⟨_, s₁, hvisit, h⟩ := bind_eq_ok.mp h
    obtain ⟨valueCode, _, hvalue, h⟩ := bind_eq_ok.mp h
    obtain ⟨rfl, rfl⟩ := pure_eq_ok.mp h
    have hnoRet := (lowerValue_straight c value _ _ _ hvalue).noRet
    refine ⟨valueCode, by rwa [State.after_of_run hvisit], hnoRet, ?_⟩
    rw [hnoRet.endsInRet]
    rfl

/-- The code of a value leaves that value and touches nothing below it, if the functions of the machine are called with
as many arguments as they take. What returns it ends in the only `RET`. -/
theorem lowerValue_stack (c : Context) (n : Node) (s : State) :
    (∀ code s', (lowerValue c n).run s = .ok code s' → code.Straight ∧
      ((∀ call ∈ builtinCalls c n s, takesArguments call.1 call.2 = true) →
        ∀ d, code.depth? d = some (d + 1))) ∧
    ∀ tag code s', (lowerStmt c (.ret tag n)).run s = .ok code s' →
      s.visits[tag.id]? = some .emitted ∧ code = [] ∨
        ∃ valueCode, (lowerValue c n).run (s.after (visit tag.id .emitted)) = .ok valueCode s' ∧ valueCode.NoRet ∧
          code = valueCode ++ [.ret] :=
  ⟨fun code s' h => ⟨lowerValue_straight c n s code s' h, lowerValue_leaves h⟩, fun _ _ _ => lowerStmt_ret⟩

/-- `len(len, 7) + len([1])`: the right operand calls the machine. The argument of the left one binds the name, so that
is no call of the machine and may have two arguments. -/
def lenTwice : Node :=
  .binary ⟨0, .zero⟩ (.call ⟨1, .zero⟩ lenName [.ident ⟨2, .zero⟩ lenName, .int ⟨3, .zero⟩ 7]) "+"
    (.call ⟨4, .zero⟩ lenName [.list ⟨5, .zero⟩ [.int ⟨6, .zero⟩ 1]])

def emptyContext : Context := ⟨.initial, {}, 0, [0]⟩

def emptyState : State := { frames := .ofTable .initial }

theorem lowerValue_stack_of_lenTwice :
    builtinCalls emptyContext lenTwice emptyState = [(lenName, 1)] ∧
    (∃ code s', (lowerValue emptyContext lenTwice).run emptyState = .ok code s' ∧
      code.length = 7 ∧ code.Straight ∧
      ∀ d, code.depth? d = some (d + 1)) ∧
    ∃ s' valueCode, (lowerStmt emptyContext (.ret ⟨7, .zero⟩ lenTwice)).run emptyState =
      .ok (valueCode ++ [.ret]) s' ∧ Code.NoRet valueCode := by
  have hcalls : builtinCalls emptyContext lenTwice emptyState = [(lenName, 1)] := by decide +kernel
  refine ⟨hcalls, ?_, ?_⟩
  · have hlength : (match (lowerValue emptyContext lenTwice).run emptyState with
        | .ok code _ => some code.length
        | .error _ _ => none) = some 7 := by decide +kernel
    split at hlength
    next code s' h =>
      obtain ⟨hstraight, hdepth⟩ := (lowerValue_stack emptyContext lenTwice emptyState).1 code s' h
      rw [hcalls] at hdepth
      exact ⟨code, s', h, Option.some.inj hlength, hstraight, hdepth (by decide)⟩
    next => cases hlength
  · have hsome : (match (lowerStmt emptyContext (.ret ⟨7, .zero⟩ lenTwice)).run emptyState with
        | .ok code _ => !code.isEmpty
        | .error _ _ => false) = true := by decide +kernel
    split at hsome
    next code s' h =>
      rcases (lowerValue_stack emptyContext lenTwice emptyState).2 _ code s' h with ⟨-, rfl⟩ |
        ⟨valueCode, -, hnoRet, rfl⟩
      · cases hsome
      · exact ⟨s', valueCode, h, hnoRet⟩
    next => cases hsome

end Lowering
end Bies
