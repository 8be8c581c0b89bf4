import Bies.Assembly.OfTable
import Bies.Proofs.Patches

/-!
# The code of a chain of conditions

`Chain.layout` says in closed form what the buffer makes of a chain: each test, a jump over its block,
the block, and a jump behind the chain where one is needed. `Chain.code_eq_layout`: putting the chain
into a buffer and resolving the labels always succeeds and gives that code.
-/

namespace Bies

namespace CodeBuffer

variable {places : List (Option Nat)} {items : List Item} {index : Nat} {out : Code}

theorem resolve_plain (code : Code) (h : resolve places (index + code.length) items = .ok out) :
    resolve places index (code.map .plain ++ items) = .ok (code ++ out) := by
  induction code generalizing index with
  | nil => simpa using h
  | cons i code ih =>
    have h' : resolve places (index + 1 + code.length) items = .ok out := by
      rw [← h, List.length_cons]; congr 1; omega
    simp only [List.map_cons, List.cons_append, resolve, ih h']
    rfl

theorem resolve_jump {onFalse : Bool} {label : Label} {target : Nat} (out : Code)
    (hl : places[label]? = some (some target)) (h : resolve places (index + 1) items = .ok out) :
    resolve places index (.jump onFalse label :: items) =
      .ok (jumpBy onFalse ((target : Int) - index) :: out) := by
  simp only [resolve, hl, h]
  rfl

end CodeBuffer

namespace Lowering
namespace Chain

open CodeBuffer

/-- The jump behind a block, over code of the given length: none if nothing follows in the chain or
the block ends by returning. -/
def leave (body : Code) (rest : Chain) (length : Nat) : Code :=
  if rest.isDone || body.endsInRet then [] else [.br (length + 1)]

def layout : Chain → Code
  | .done => []
  | .otherwise code => code
  | .branch test body rest =>
    let leave := leave body rest rest.layout.length
    test ++ .bf (body.length + leave.length + 1) :: (body ++ leave ++ rest.layout)

/-- What `emit` adds to a buffer that holds the items `before`: items for the code of the chain, and places for
new labels only. The items resolve to the layout once the label `exit` is put behind them. -/
structure Emits (exit : Label) (chain : Chain) (before : List Item) (b b' : CodeBuffer) (items : List Item)
    (more : List (Option Nat)) : Prop where
  holds : b'.Holds (before ++ items)
  places_eq : b'.places = b.places ++ more
  length_eq : items.length = chain.layout.length
  resolve_eq : ∀ places, (∀ l, b.places.length ≤ l → places[l]? = (b.places ++ more)[l]?) →
    places[exit]? = some (some (before.length + chain.layout.length)) →
    resolve places before.length items = .ok chain.layout

def branchItems (exit next : Label) (test body : Code) (rest : Chain) : List Item :=
  test.map .plain ++ .jump true next ::
    (body.map .plain ++ if rest.isDone || body.endsInRet then [] else [.jump false exit])

theorem length_branchItems (exit next : Label) (test body : Code) (rest : Chain) (n : Nat) :
    (branchItems exit next test body rest).length =
      test.length + (body.length + (leave body rest n).length + 1) := by
  unfold branchItems leave
  split <;> simp

def afterBranch (exit : Label) (b : CodeBuffer) (test body : Code) (rest : Chain) : CodeBuffer :=
  let tested := ((b.newLabel.2.append test).jumpIfFalse b.newLabel.1).append body
  (if rest.isDone || body.endsInRet then tested else tested.jump exit).place b.newLabel.1

theorem any_last?_append (b : CodeBuffer) (label : Label) (body : Code) :
    ((b.jumpIfFalse label).append body).last?.any (·.isRet) = body.endsInRet := by
  show (b.code ++ [Instruction.bf 0] ++ body).getLast?.any Instruction.isRet = body.getLast?.any Instruction.isRet
  rw [List.getLast?_append, List.getLast?_concat]
  cases body.getLast? <;> rfl

theorem emit_branch (exit : Label) (b : CodeBuffer) (test body : Code) (rest : Chain) :
    emit exit b (.branch test body rest) = emit exit (afterBranch exit b test body rest) rest := by
  simp only [emit, afterBranch, any_last?_append]

section
variable {b : CodeBuffer} {before : List Item} (h : b.Holds before) (exit : Label) (test body : Code) (rest : Chain)
include h

theorem afterBranch_holds :
    (afterBranch exit b test body rest).Holds (before ++ branchItems exit b.places.length test body rest) := by
  have htested := ((h.newLabel.append test).jumpIfFalse b.newLabel.1).append body
  show Holds _ (before ++ branchItems exit b.newLabel.1 test body rest)
  unfold afterBranch branchItems
  dsimp only
  split
  · simpa using htested.place b.newLabel.1
  · simpa using (htested.jump exit).place b.newLabel.1

theorem afterBranch_places : (afterBranch exit b test body rest).places =
    b.places ++ [some (before ++ branchItems exit b.places.length test body rest).length] := by
  rw [← (afterBranch_holds h exit test body rest).length_eq]
  unfold afterBranch
  dsimp only
  split <;> simp [newLabel, CodeBuffer.append, jumpIfFalse, jump, place, List.set_append_right]

end

theorem length_layout_branch (test body : Code) (rest : Chain) :
    (Chain.branch test body rest).layout.length = test.length +
      (body.length + (leave body rest rest.layout.length).length + 1) + rest.layout.length := by
  simp [layout]; omega

theorem resolve_branchItems {places : List (Option Nat)} {exit next : Label} {test body : Code} {rest : Chain}
    {index : Nat} {items : List Item}
    (hn : places[next]? =
      some (some (index + (test.length + (body.length + (leave body rest rest.layout.length).length + 1)))))
    (hx : places[exit]? = some (some (index + (Chain.branch test body rest).layout.length)))
    (h : resolve places (index + (test.length + (body.length + (leave body rest rest.layout.length).length + 1)))
      items = .ok rest.layout) :
    resolve places index (branchItems exit next test body rest ++ items) =
      .ok (Chain.branch test body rest).layout := by
  simp only [branchItems, List.append_assoc, List.cons_append, layout]
  refine resolve_plain test ?_
  have distance :
      ((index + (test.length + (body.length + (leave body rest rest.layout.length).length + 1)) : Nat) : Int) -
      ((index + test.length : Nat) : Int) =
      ((body.length + (leave body rest rest.layout.length).length + 1 : Nat) : Int) := by omega
  rw [resolve_jump (body ++ (leave body rest rest.layout.length ++ rest.layout)) hn, distance]
  · simp [jumpBy]
  · refine resolve_plain body ?_
    unfold leave at h ⊢
    split
    case isTrue hl =>
      simp only [hl, if_true, List.length_nil, List.nil_append] at h ⊢
      rw [← h]; congr 1; omega
    case isFalse hl =>
      simp only [hl, List.cons_append, List.nil_append] at h ⊢
      have behind : ((index + (Chain.branch test body rest).layout.length : Nat) : Int) -
          ((index + test.length + 1 + body.length : Nat) : Int) = rest.layout.length + 1 := by
        rw [length_layout_branch, leave, if_neg hl]; simp; omega
      rw [resolve_jump rest.layout hx, behind]
      · rfl
      · rw [← h]; simp; congr 1; omega

theorem emit_emits (exit : Label) : ∀ (chain : Chain) (b : CodeBuffer) (before : List Item), b.Holds before →
    exit < b.places.length → ∃ items more, Emits exit chain before b (chain.emit exit b) items more
  | .done, b, before, h, _ => ⟨[], [], by simpa [emit] using h, by simp [emit], rfl, fun _ _ _ => rfl⟩
  | .otherwise code, b, before, h, _ =>
    ⟨code.map .plain, [], h.append code, by simp [emit, CodeBuffer.append], by simp [layout], fun _ _ _ => by
      simpa [layout] using resolve_plain code (show resolve _ (_ + code.length) [] = .ok [] from rfl)⟩
  | .branch test body rest, b, before, h, he => by
    let b₁ := afterBranch exit b test body rest
    let before₁ := before ++ branchItems exit b.places.length test body rest
    have length₁ : before₁.length =
        before.length + (test.length + (body.length + (leave body rest rest.layout.length).length + 1)) := by
      simp only [before₁, List.length_append, length_branchItems _ _ _ _ _ rest.layout.length]
    have places₁ : b₁.places = b.places ++ [some before₁.length] := afterBranch_places h exit test body rest
    have he₁ : exit < b₁.places.length := by rw [places₁, List.length_append]; exact Nat.lt_add_right _ he
    obtain ⟨items, more, hrest⟩ :=
      emit_emits exit rest b₁ before₁ (afterBranch_holds h exit test body rest) he₁
    have more₁ : b₁.places ++ more = b.places ++ some before₁.length :: more := by rw [places₁]; simp
    refine ⟨branchItems exit b.places.length test body rest ++ items, some before₁.length :: more, ?_, ?_, ?_, ?_⟩
    · rw [emit_branch, ← List.append_assoc]
      exact hrest.holds
    · rw [emit_branch, hrest.places_eq, more₁]
    · rw [List.length_append, length_branchItems _ _ _ _ _ rest.layout.length, hrest.length_eq, length_layout_branch]
    · intro places hp hx
      have hr := hrest.resolve_eq places
        (fun l hl => by rw [more₁]; exact hp l (by rw [places₁, List.length_append] at hl; omega))
        (by rw [hx, length₁, length_layout_branch]; congr 2; omega)
      rw [length₁] at hr
      refine resolve_branchItems ?_ hx hr
      rw [hp _ (Nat.le_refl _), ← length₁]; simp

theorem code_eq_layout (chain : Chain) : chain.code = .ok chain.layout := by
  obtain ⟨items, more, h⟩ := emit_emits 0 chain empty.newLabel.2 [] holds_empty.newLabel Nat.zero_lt_one
  have hp : (chain.emit 0 empty.newLabel.2).places = none :: more := h.places_eq
  have hlength := h.holds.length_eq
  rw [List.nil_append, h.length_eq] at hlength
  show ((chain.emit 0 empty.newLabel.2).place 0).finish = _
  rw [(h.holds.place 0).finish]
  refine h.resolve_eq _ ?_ ?_
  · intro l hl
    cases l with
    | zero => exact absurd hl (Nat.not_succ_le_zero 0)
    | succ l =>
      show ((chain.emit 0 empty.newLabel.2).places.set 0 _)[l + 1]? = _
      rw [hp]
      rfl
  · simp [place, hp, hlength]

end Chain
end Lowering
end Bies
