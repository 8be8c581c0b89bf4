import Bies.Proofs.FoldedCode
import Bies.Proofs.Lockstep

/-!
# Callee policies

What the parameters of a function are taken to hold after a call is read by nothing but the choice between a sum
and joined texts. Compiling under the two policies gives the same frames up to the values noted in them, so the
two codes differ at most in `ADD` and `CAT`.
-/

namespace Bies

open List

/-- The same instruction, or a sum on one side and joined texts on the other. -/
inductive Instruction.Alike : Instruction → Instruction → Prop where
  | refl (i : Instruction) : Alike i i
  | sum : Alike .add .cat
  | join : Alike .cat .add

namespace Lowering

structure State.SameNames (s t : State) : Prop where
  names : s.frames.names = t.frames.names
  visits : s.visits = t.visits
  skipped : s.skipped = t.skipped

variable {o o' : Options} {c c' : Context} {name : String}

theorem isBuiltin_of_names {fs fs' : Frames} (h : fs.names = fs'.names) (hchain : c.chain = c'.chain)
    (htable : c.table = c'.table) : isBuiltin c fs name = isBuiltin c' fs' name := by
  have hresolve := congrArg Option.isNone (Frames.resolve?_of_names h name c.chain)
  rw [Option.isNone_map, Option.isNone_map] at hresolve
  simp only [isBuiltin, ← hchain, ← htable, hresolve]

theorem bind_sameNames (name : String) (hf : c.function = c'.function) (v v' : Option Node) :
    Together State.SameNames (Lowering.bind c name v) (Lowering.bind c' name v') fun slot slot' s t =>
      slot = slot' ∧ s.SameNames t := by
  apply Together.changeGet
  intro s t h
  refine ⟨?_, ⟨?_, h.visits, h.skipped⟩⟩
  · show (s.frames.bind c.function name v).1 = (t.frames.bind c'.function name v').1
    rw [Frames.slot_bind, Frames.slot_bind, h.names, hf]
  · show (s.frames.bind c.function name v).2.names = (t.frames.bind c'.function name v').2.names
    rw [Frames.names_bind, Frames.names_bind, h.names, hf]

structure Context.SameNames (c c' : Context) : Prop where
  table : c.table = c'.table
  unbound : c.options.unbound = c'.options.unbound
  function : c.function = c'.function
  chain : c.chain = c'.chain

theorem Context.sameNames_beside {unbound : UnboundPolicy} {callee callee' : CalleePolicy}
    (hc : c.options = ⟨unbound, callee⟩) : c.SameNames { c with options := ⟨unbound, callee'⟩ } where
  table := rfl
  unbound := by rw [hc]
  function := rfl
  chain := rfl

theorem loadName_sameNames (hc : c.SameNames c') (name : String) (span : Span) :
    Together State.SameNames (loadName c name span) (loadName c' name span) fun i j s t => i = j ∧ s.SameNames t := by
  unfold loadName
  apply Together.read
  intro s t h
  have hresolve := Frames.resolve?_of_names h.names name c.chain
  rw [← hc.chain, ← hc.table, ← hc.unbound]
  cases hr : s.frames.resolve? name c.chain with
  | some r =>
    cases hr' : t.frames.resolve? name c.chain with
    | none => simp [hr, hr'] at hresolve
    | some r' =>
      simp only [hr, hr', Option.map_some, Option.some.injEq, Prod.mk.injEq] at hresolve
      exact .ret fun _ _ h => ⟨by simp [hresolve], h.2.2⟩
  | none =>
    rw [hr] at hresolve
    rw [Option.map_eq_none_iff.mp hresolve.symm]
    dsimp only
    cases c.table.get? name with
    | some f => exact .ret fun _ _ h => ⟨rfl, h.2.2⟩
    | none =>
      cases c.options.unbound with
      | reject => exact .fail _
      | implicitBinding =>
        have hbind := bind_sameNames name hc.function none none
        refine Together.andThen (fun s t h => hbind s t h.2.2) ?_
        rintro slot _ rfl
        refine Together.bind (P := fun _ _ => State.SameNames)
          (.change fun _ _ h => ⟨h.names, h.visits, h.skipped⟩) ?_
        exact fun _ _ => .ret fun _ _ h => ⟨rfl, h⟩

theorem arithmeticInstruction_sameNames (tag : Tag) (left : Node) (op : String) (right : Node) :
    Together State.SameNames (arithmeticInstruction c tag left op right) (arithmeticInstruction c' tag left op right)
      fun i j s t => i.Alike j ∧ s.SameNames t := by
  unfold arithmeticInstruction
  cases Instruction.arithmetic? op with
  | none => exact .fail _
  | some i =>
    apply Together.read
    intro s t _
    refine .ret fun _ _ h => ⟨?_, h.2.2⟩
    by_cases hadd : i.isAdd
    · obtain rfl : i = .add := by cases i <;> simp_all [Instruction.isAdd]
      generalize (isTextual c s.frames maxTextual left || isTextual c s.frames maxTextual right) = a
      generalize (isTextual c' t.frames maxTextual left || isTextual c' t.frames maxTextual right) = b
      -- which of the two it is depends on the values in the frames
      cases a <;> cases b <;> constructor
    · simpa only [hadd, Bool.false_and, Bool.false_eq_true, if_false] using .refl i

theorem finishCall_sameNames (hc : c.SameNames c') (tag : Tag) (args : List Node) :
    Together State.SameNames (finishCall c tag name args) (finishCall c' tag name args) fun a b s t =>
      a = b ∧ s.SameNames t := by
  unfold finishCall
  apply Together.read
  intro s t h
  rw [isBuiltin_of_names h.names hc.chain hc.table]
  suffices h : Together State.SameNames _ _ _ from fun s t hst => h s t hst.2.2
  by_cases hbuiltin : isBuiltin c' t.frames name
  · rw [if_pos hbuiltin, if_pos hbuiltin]
    by_cases hlen : name = lenName
    · rw [if_pos hlen, if_pos hlen]
      exact .ret fun _ _ h => ⟨rfl, h⟩
    · rw [if_neg hlen, if_neg hlen]
      refine Together.andThen (bind_sameNames _ hc.function _ _) ?_
      rintro slot _ rfl
      exact .ret fun _ _ h => ⟨rfl, h⟩
  · rw [if_neg hbuiltin, if_neg hbuiltin]
    refine Together.andThen (loadName_sameNames hc name tag.span) ?_
    rintro i _ rfl
    rw [← hc.table]
    cases c.table.get? name with
    | none => exact .ret fun _ _ h => ⟨rfl, h⟩
    | some callee =>
      refine Together.bind (P := fun _ _ => State.SameNames) (.change fun s t h => ⟨?_, h.visits, h.skipped⟩) ?_
      · rw [Frames.names_seed_eq, Frames.names_seed_eq, h.names]
      · exact fun _ _ => .ret fun _ _ h => ⟨rfl, h⟩

def calleePolicies (unbound : UnboundPolicy) :
    Lockstep ⟨unbound, .callArguments⟩ ⟨unbound, .callerPrefix⟩ where
  rel P x y := Together State.SameNames x y fun a b s t => P a b ∧ s.SameNames t
  bind hx hf := hx.andThen hf
  ret h := .ret fun _ _ hst => ⟨h, hst⟩
  fail := .fail
  same := Instruction.Alike
  same_refl := .refl
  isRet_eq h := by cases h <;> rfl
  read s t h := ⟨⟨h.visits, h.skipped⟩, h⟩
  visit id v := .change fun s t h => ⟨trivial, h.names, by rw [h.visits], h.skipped⟩
  start f name := .change fun s t h => ⟨trivial, h.names, h.visits, h.skipped⟩
  skip c n := by
    refine Together.bind (P := fun _ _ => State.SameNames) (.change fun _ _ h => ⟨h.names, h.visits, h.skipped⟩) ?_
    refine fun _ _ => Together.bind (P := fun _ _ => State.SameNames)
      (.change fun _ _ h => ⟨h.names, h.visits, ?_⟩) ?_
    · rw [h.skipped]
    · exact fun _ _ => .ret fun _ _ h => ⟨rfl, h⟩
  bindName c name value := bind_sameNames name rfl _ _
  loadName hc name span := loadName_sameNames (Context.sameNames_beside hc) name span
  arithmetic _ := arithmeticInstruction_sameNames
  finishCall hc tag name args := finishCall_sameNames (Context.sameNames_beside hc) tag args

end Lowering

/-- Where a callee's frame gets its values from only decides between `ADD` and `CAT`. -/
theorem compileTree_calleePolicies (unbound : UnboundPolicy) (source : List Char) (tree : Tree) :
    match (compileTree ⟨unbound, .callArguments⟩ source tree).result,
      (compileTree ⟨unbound, .callerPrefix⟩ source tree).result with
    | .ok a, .ok b => Forall₂ (FunctionCode.Alike Instruction.Alike) a.functions b.functions ∧ a.skipped = b.skipped
    | .error e, .error e' => e = e'
    | _, _ => False := by
  unfold compileTree Outcome.andThen
  cases (FunctionTable.ofProgram (.ofTree source tree)).result with
  | error e => rfl
  | ok table =>
    have h := (Lowering.calleePolicies unbound).lower table
    replace h := h { frames := .ofTable table } { frames := .ofTable table } ⟨rfl, rfl, rfl⟩
    dsimp only [Assembly.ofTable, Outcome.ofRun]
    cases hx : (Lowering.lower table ⟨unbound, .callArguments⟩).run { frames := .ofTable table } <;>
      cases hy : (Lowering.lower table ⟨unbound, .callerPrefix⟩).run { frames := .ofTable table } <;>
      rw [hx, hy] at h
    · exact h.1
    · exact h.elim
    · exact h.elim
    · exact h

end Bies
