import Bies.CodeBuffer

/-!
# Buffers as lists of items

An item is an instruction or a jump to a label. A buffer holds a list of items if its code is theirs, with every jump
going nowhere yet, and its patches are their jumps. Patching the code jump by jump then comes to the same as turning the
items into instructions one after another: a patch always hits a jump, and no other patch touches it.
-/

namespace Bies.CodeBuffer

inductive Item where
  | plain (instruction : Instruction)
  /-- A jump, `onFalse` if it is taken only when the popped value is false. -/
  | jump (onFalse : Bool) (label : Label)

def jumpBy (onFalse : Bool) (offset : Int) : Instruction :=
  if onFalse then .bf offset else .br offset

def Item.draft : Item → Instruction
  | .plain i => i
  | .jump onFalse _ => jumpBy onFalse 0

def patchesFrom : (index : Nat) → List Item → List (Nat × Label)
  | _, [] => []
  | index, .plain _ :: rest => patchesFrom (index + 1) rest
  | index, .jump _ label :: rest => (index, label) :: patchesFrom (index + 1) rest

structure Holds (b : CodeBuffer) (items : List Item) : Prop where
  code_eq : b.code = items.map Item.draft
  patches_eq : b.patches = patchesFrom 0 items

def resolve (places : List (Option Nat)) : (index : Nat) → List Item → Except InternalError Code
  | _, [] => .ok []
  | index, .plain i :: rest => do return i :: (← resolve places (index + 1) rest)
  | index, .jump onFalse label :: rest =>
    match places[label]? with
    | some (some target) => do
      return jumpBy onFalse ((target : Int) - index) :: (← resolve places (index + 1) rest)
    | _ => .error (.unplacedLabel label)

/-! ## What each step does to the items -/

section
variable {b : CodeBuffer} {items : List Item}

theorem patchesFrom_append (index : Nat) (front back : List Item) :
    patchesFrom index (front ++ back) = patchesFrom index front ++ patchesFrom (index + front.length) back := by
  induction front generalizing index with
  | nil => rfl
  | cons item front ih =>
    have hindex : index + (item :: front).length = index + 1 + front.length := by rw [List.length_cons]; omega
    rw [hindex]
    cases item <;> simp [patchesFrom, ih]

theorem patchesFrom_plain (index : Nat) (code : Code) : patchesFrom index (code.map .plain) = [] := by
  induction code generalizing index with
  | nil => rfl
  | cons i code ih => exact ih (index + 1)

theorem holds_empty : empty.Holds [] := ⟨rfl, rfl⟩

theorem Holds.length_eq (h : b.Holds items) : b.code.length = items.length := by rw [h.code_eq, List.length_map]

theorem Holds.newLabel (h : b.Holds items) : b.newLabel.2.Holds items := ⟨h.code_eq, h.patches_eq⟩

theorem Holds.place (h : b.Holds items) (label : Label) : (b.place label).Holds items := ⟨h.code_eq, h.patches_eq⟩

theorem Holds.append (h : b.Holds items) (code : Code) : (b.append code).Holds (items ++ code.map .plain) where
  code_eq := by
    have hdraft : code.map (Item.draft ∘ .plain) = code := List.map_id code
    simp [CodeBuffer.append, h.code_eq, hdraft]
  patches_eq := by simp [CodeBuffer.append, h.patches_eq, patchesFrom_append, patchesFrom_plain]

theorem Holds.push (h : b.Holds items) (i : Instruction) : (b.push i).Holds (items ++ [.plain i]) := h.append [i]

theorem Holds.jump (h : b.Holds items) (label : Label) : (b.jump label).Holds (items ++ [.jump false label]) where
  code_eq := by simp [CodeBuffer.jump, h.code_eq, Item.draft, jumpBy]
  patches_eq := by simp [CodeBuffer.jump, h.patches_eq, patchesFrom_append, patchesFrom, h.length_eq]

theorem Holds.jumpIfFalse (h : b.Holds items) (label : Label) :
    (b.jumpIfFalse label).Holds (items ++ [.jump true label]) where
  code_eq := by simp [CodeBuffer.jumpIfFalse, h.code_eq, Item.draft, jumpBy]
  patches_eq := by simp [CodeBuffer.jumpIfFalse, h.patches_eq, patchesFrom_append, patchesFrom, h.length_eq]

end

/-! ## Finishing -/

section
variable {places : List (Option Nat)}

theorem patch_draft (front back : Code) (onFalse : Bool) (label : Label) {target : Nat}
    (h : places[label]? = some (some target)) :
    patch places (front ++ jumpBy onFalse 0 :: back) front.length label =
      .ok (front ++ jumpBy onFalse ((target : Int) - front.length) :: back) := by
  have hhere : (front ++ jumpBy onFalse 0 :: back)[front.length]? = some (jumpBy onFalse 0) := by simp
  unfold patch
  rw [h, hhere]
  cases onFalse <;> simp [jumpBy]

theorem patch_unplaced (code : Code) (index : Nat) {label : Label} (h : places[label]?.join = none) :
    patch places code index label = .error (.unplacedLabel label) := by
  unfold patch
  split
  next hplace => simp [hplace] at h
  next => rfl

/-- The induction is on the items that are left; `front` is the code of those that are done. -/
theorem foldlM_patch (items : List Item) (front : Code) :
    (patchesFrom front.length items).foldlM (fun code (index, label) => patch places code index label)
        (front ++ items.map Item.draft) = (resolve places front.length items).map (front ++ ·) := by
  induction items generalizing front with
  | nil => rfl
  | cons item items ih =>
    have hnext (i : Instruction) : (patchesFrom (front.length + 1) items).foldlM
        (fun code (index, label) => patch places code index label) (front ++ i :: items.map Item.draft) =
          (resolve places (front.length + 1) items).map (front ++ i :: ·) := by
      have := ih (front ++ [i])
      simpa [List.append_assoc] using this
    cases item with
    | plain i =>
      simp only [patchesFrom, List.map_cons, Item.draft, hnext, resolve]
      cases resolve places (front.length + 1) items <;> rfl
    | jump onFalse label =>
      simp only [patchesFrom, List.map_cons, Item.draft, List.foldlM_cons, resolve]
      cases hplace : places[label]?.join with
      | none =>
        rw [patch_unplaced _ _ hplace]
        split
        next htarget => simp [htarget] at hplace
        next => rfl
      | some target =>
        have htarget : places[label]? = some (some target) := by simpa [Option.join_eq_some_iff] using hplace
        rw [patch_draft _ _ _ _ htarget, htarget]
        refine (hnext _).trans ?_
        cases resolve places (front.length + 1) items <;> rfl

end

theorem Holds.finish {b : CodeBuffer} {items : List Item} (h : b.Holds items) :
    b.finish = resolve b.places 0 items := by
  have hpatches := @foldlM_patch b.places items []
  rw [CodeBuffer.finish, h.code_eq, h.patches_eq]
  refine hpatches.trans ?_
  cases resolve b.places 0 items <;> rfl

end Bies.CodeBuffer
