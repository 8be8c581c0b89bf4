import Bies.Proofs.Patches
import Mathlib.Data.List.Induction

/-!
# Labels and jumps

A buffer is told by the steps that filled it. `emissions` is what the steps put out, and the step that places a
label last says where the label stands. `finish_run` says from the steps alone whether the buffer can be
finished, and what comes out.
-/

namespace Bies.CodeBuffer

inductive Step where
  | push (instruction : Instruction)
  | newLabel
  | place (label : Label)
  | jump (label : Label)
  | jumpIfFalse (label : Label)

def Step.item? : Step → Option Item
  | push i => some (.plain i)
  | newLabel => none
  | place _ => none
  | jump label => some (.jump false label)
  | jumpIfFalse label => some (.jump true label)

def Step.label? : Step → Option Label
  | push _ => none
  | newLabel => none
  | place label => some label
  | jump label => some label
  | jumpIfFalse label => some label

def apply (b : CodeBuffer) : Step → CodeBuffer
  | .push i => b.push i
  | .newLabel => b.newLabel.2
  | .place label => b.place label
  | .jump label => b.jump label
  | .jumpIfFalse label => b.jumpIfFalse label

def run (steps : List Step) : CodeBuffer := steps.foldl apply empty

def emissions (steps : List Step) : List Item := steps.filterMap Step.item?

/-- Every label that a step is given was made by an earlier step. -/
def Issued (steps : List Step) : Prop :=
  ∀ before step after label, steps = before ++ step :: after → step.label? = some label →
    ∃ earlier later, before = earlier ++ .newLabel :: later ∧ (run earlier).newLabel.1 = label

def LastPlaced (steps : List Step) (label : Label) (before : List Step) : Prop :=
  ∃ after, steps = before ++ .place label :: after ∧ .place label ∉ after

/-- What is put out is the code, but for the jumps: each goes from its own number to the number of instructions
put out before its label was placed last. -/
structure Finished (steps : List Step) (code : Code) : Prop where
  length_eq : code.length = (emissions steps).length
  plain : ∀ (i : Nat) instruction, (emissions steps)[i]? = some (.plain instruction) → code[i]? = some instruction
  jump : ∀ (i : Nat) onFalse label, (emissions steps)[i]? = some (.jump onFalse label) →
    ∃ before, LastPlaced steps label before ∧ code[i]? = some (jumpBy onFalse ((emissions before).length - i))

/-- The first jump put out whose label is never placed goes to `label`. -/
def FirstUnplaced (steps : List Step) (label : Label) : Prop :=
  ∃ front onFalse back, emissions steps = front ++ .jump onFalse label :: back ∧ .place label ∉ steps ∧
    ∀ onFalse' label', .jump onFalse' label' ∈ front → .place label' ∈ steps

/-! ## What the buffer holds -/

section
variable {steps before after : List Step} {label : Label}

theorem run_concat (steps : List Step) (step : Step) : run (steps ++ [step]) = (run steps).apply step := by
  simp [run]

theorem emissions_cons (step : Step) (steps : List Step) :
    emissions (step :: steps) = step.item?.toList ++ emissions steps := by
  cases step <;> rfl

theorem Holds.apply {b : CodeBuffer} {items : List Item} (h : b.Holds items) (step : Step) :
    (b.apply step).Holds (items ++ step.item?.toList) := by
  cases step with
  | push i => exact h.push i
  | newLabel => simpa [Step.item?, CodeBuffer.apply] using h.newLabel
  | place label => simpa [Step.item?, CodeBuffer.apply] using h.place label
  | jump label => exact h.jump label
  | jumpIfFalse label => exact h.jumpIfFalse label

theorem Holds.foldl {b : CodeBuffer} {items : List Item} (h : b.Holds items) (steps : List Step) :
    (steps.foldl CodeBuffer.apply b).Holds (items ++ emissions steps) := by
  induction steps generalizing b items with
  | nil => simpa [emissions] using h
  | cons step steps ih =>
    rw [emissions_cons, ← List.append_assoc]
    exact ih (h.apply step)

theorem holds_run (steps : List Step) : (run steps).Holds (emissions steps) := holds_empty.foldl steps

theorem length_places_foldl (steps : List Step) (b : CodeBuffer) :
    b.places.length ≤ (steps.foldl apply b).places.length := by
  induction steps generalizing b with
  | nil => exact Nat.le_refl _
  | cons step steps ih =>
    refine Nat.le_trans ?_ (ih (b.apply step))
    cases step <;> simp [apply, push, newLabel, place, jump, jumpIfFalse]

theorem Issued.lt_length {step : Step} (h : Issued steps) (hs : steps = before ++ step :: after)
    (hl : step.label? = some label) : label < (run before).places.length := by
  obtain ⟨earlier, later, rfl, rfl⟩ := h before step after label hs hl
  have := length_places_foldl later (run earlier).newLabel.2
  change _ ≤ (List.foldl apply empty (earlier ++ .newLabel :: later)).places.length
  rw [List.foldl_append]
  simpa [newLabel, run, apply] using this

theorem exists_newLabel (h : label < (run before).places.length) :
    ∃ earlier later, before = earlier ++ .newLabel :: later ∧ (run earlier).newLabel.1 = label := by
  induction before using List.reverseRecOn with
  | nil => exact absurd h (Nat.not_lt_zero _)
  | append_singleton before step ih =>
    by_cases hlt : label < (run before).places.length
    · obtain ⟨earlier, later, rfl, hlabel⟩ := ih hlt
      exact ⟨earlier, later ++ [step], by simp, hlabel⟩
    · rw [run_concat] at h
      cases step with
      | newLabel =>
        refine ⟨before, [], rfl, ?_⟩
        have hle : label < (run before).places.length + 1 := by simpa [apply, newLabel] using h
        exact Nat.le_antisymm (Nat.le_of_not_lt hlt) (Nat.le_of_lt_succ hle)
      | _ => exact absurd (by simpa [apply, push, place, jump, jumpIfFalse] using h) hlt

theorem issued_iff : Issued steps ↔ ∀ k, (hk : k < steps.length) → ∀ label ∈ steps[k].label?,
    label < (run (steps.take k)).places.length := by
  refine ⟨fun h k hk label hl => ?_, fun h before step after label hs hl => exists_newLabel ?_⟩
  · exact h.lt_length (by rw [List.getElem_cons_drop, List.take_append_drop]) hl
  · subst hs
    simpa using h before.length (by simp) label (by simpa using hl)

instance (steps : List Step) : Decidable (Issued steps) := decidable_of_iff _ issued_iff.symm

def target (places : List (Option Nat)) (label : Label) : Option Nat := places[label]?.join

theorem target_apply (b : CodeBuffer) (step : Step) (h : step ≠ .place label) :
    target (b.apply step).places label = target b.places label := by
  cases step with
  | newLabel =>
    simp only [target, apply, newLabel, List.getElem?_append]
    split
    · rfl
    · next hlt => cases hk : label - b.places.length <;> simp [List.getElem?_eq_none (Nat.le_of_not_lt hlt)]
  | place other =>
    have hne : other ≠ label := fun he => h (he ▸ rfl)
    simp [target, apply, place, hne]
  | _ => rfl

theorem target_foldl (b : CodeBuffer) (h : .place label ∉ steps) :
    target (steps.foldl apply b).places label = target b.places label := by
  induction steps generalizing b with
  | nil => rfl
  | cons step steps ih =>
    rw [List.mem_cons, not_or] at h
    rw [List.foldl_cons, ih _ h.2, target_apply b step (Ne.symm h.1)]

theorem target_of_notMem (h : .place label ∉ steps) : target (run steps).places label = none :=
  target_foldl empty h

theorem target_of_lastPlaced (h : Issued steps) (hlast : LastPlaced steps label before) :
    target (run steps).places label = some (emissions before).length := by
  obtain ⟨after, rfl, hafter⟩ := hlast
  have hlt := h.lt_length rfl rfl
  rw [run, List.foldl_append, List.foldl_cons, target_foldl _ hafter]
  change target ((run before).place label).places label = _
  simp [target, place, hlt, (holds_run before).length_eq]

theorem exists_lastPlaced (h : .place label ∈ steps) : ∃ before, LastPlaced steps label before := by
  obtain ⟨after, before, heq, hafter⟩ := List.eq_append_cons_of_mem (List.mem_reverse.2 h)
  refine ⟨before.reverse, after.reverse, ?_, by simpa using hafter⟩
  rw [← List.reverse_reverse steps, heq]
  simp

end

/-! ## What finishing does -/

def Item.at (places : List (Option Nat)) (index : Nat) : Item → Instruction
  | plain i => i
  | jump onFalse label => jumpBy onFalse (((target places label).getD 0 : Nat) - index)

def Item.Hits (places : List (Option Nat)) : Item → Prop
  | plain _ => True
  | jump _ label => target places label ≠ none

def resolved (places : List (Option Nat)) (index : Nat) (items : List Item) : Code :=
  items.mapIdx fun i item => item.at places (index + i)

section
variable {places : List (Option Nat)} {item : Item}

theorem resolved_cons (index : Nat) (items : List Item) :
    resolved places index (item :: items) = item.at places index :: resolved places (index + 1) items := by
  rw [resolved, List.mapIdx_cons]
  congr 2
  funext i rest
  rw [Nat.add_right_comm, Nat.add_assoc]

theorem resolve_cons (h : item.Hits places) (index : Nat) (items : List Item) :
    resolve places index (item :: items) = (resolve places (index + 1) items).map (item.at places index :: ·) := by
  cases item with
  | plain i => rfl
  | jump onFalse label =>
    obtain ⟨goal, hgoal⟩ := Option.ne_none_iff_exists'.1 h
    have hp : places[label]? = some (some goal) := by simpa [target, Option.join_eq_some_iff] using hgoal
    simp only [resolve, hp, Item.at, hgoal]
    rfl

theorem resolve_miss (h : ¬item.Hits places) (index : Nat) (items : List Item) :
    ∃ onFalse label, item = .jump onFalse label ∧
      resolve places index (item :: items) = .error (.unplacedLabel label) := by
  cases item with
  | plain i => exact absurd trivial h
  | jump onFalse label =>
    refine ⟨onFalse, label, rfl, ?_⟩
    have hnone : places[label]?.join = none := Decidable.not_not.1 h
    rw [resolve]
    split
    · next hp => simp [hp] at hnone
    · rfl

end

/-- The items are resolved one by one if all of them hit. Otherwise the first that misses is named. -/
theorem resolve_cases (places : List (Option Nat)) (items : List Item) (index : Nat) :
    ((∀ item ∈ items, item.Hits places) ∧ resolve places index items = .ok (resolved places index items)) ∨
      ∃ front onFalse label back, items = front ++ .jump onFalse label :: back ∧
        (∀ item ∈ front, item.Hits places) ∧
        ¬(Item.jump onFalse label).Hits places ∧ resolve places index items = .error (.unplacedLabel label) := by
  induction items generalizing index with
  | nil => exact .inl ⟨by simp, rfl⟩
  | cons item items ih =>
    by_cases h : item.Hits places
    · rw [resolve_cons h, resolved_cons]
      rcases ih (index + 1) with ⟨hall, hok⟩ | ⟨front, onFalse, label, back, heq, hfront, hmiss, herr⟩
      · exact .inl ⟨by simpa [h] using hall, by rw [hok]; rfl⟩
      · exact .inr ⟨item :: front, onFalse, label,
          back, by rw [heq]; rfl, by simpa [h] using hfront, hmiss, by rw [herr]; rfl⟩
    · obtain ⟨onFalse, label, rfl, herr⟩ := resolve_miss h index items
      exact .inr ⟨[], onFalse, label, items, rfl, by simp, h, herr⟩

section
variable {steps : List Step} (h : Issued steps)
include h

theorem target_ne_none_iff (label : Label) : target (run steps).places label ≠ none ↔ .place label ∈ steps := by
  refine ⟨fun ht => ?_, fun hmem => ?_⟩
  · by_contra hmem
    exact ht (target_of_notMem hmem)
  · obtain ⟨before, hlast⟩ := exists_lastPlaced hmem
    simp [target_of_lastPlaced h hlast]

theorem hits_iff (item : Item) :
    item.Hits (run steps).places ↔ ∀ onFalse label, item = .jump onFalse label → .place label ∈ steps := by
  cases item with
  | plain i => simp [Item.Hits]
  | jump onFalse label =>
    rw [Item.Hits, target_ne_none_iff h]
    refine ⟨fun hmem onFalse' label' heq => ?_, fun hall => hall _ _ rfl⟩
    obtain ⟨-, rfl⟩ := Item.jump.inj heq
    exact hmem

theorem finished_resolved (hall : ∀ item ∈ emissions steps, item.Hits (run steps).places) :
    Finished steps (resolved (run steps).places 0 (emissions steps)) where
  length_eq := by simp [resolved]
  plain i instruction hi := by simp [resolved, hi, Item.at]
  jump i onFalse label hi := by
    obtain ⟨before, hlast⟩ := exists_lastPlaced ((hits_iff h _).1 (hall _ (List.mem_of_getElem? hi)) _ _ rfl)
    refine ⟨before, hlast, ?_⟩
    simp [resolved, hi, Item.at, target_of_lastPlaced h hlast]

end

theorem finish_run {steps : List Step} (h : Issued steps) :
    ((∃ code, (run steps).finish = .ok code) ↔
        ∀ onFalse label, .jump onFalse label ∈ emissions steps → .place label ∈ steps) ∧
      (∀ code, (run steps).finish = .ok code → Finished steps code) ∧
      ∀ e, (run steps).finish = .error e → ∃ label, FirstUnplaced steps label ∧ e = .unplacedLabel label := by
  rw [(holds_run steps).finish]
  rcases resolve_cases (run steps).places (emissions steps) 0 with ⟨hall, hok⟩ |
    ⟨front, onFalse, label, back, heq, hfront, hmiss, herr⟩
  · rw [hok]
    refine ⟨⟨fun _ onFalse label hmem => (hits_iff h _).1 (hall _ hmem) _ _ rfl, fun _ => ⟨_, rfl⟩⟩,
      ?_, by simp⟩
    rintro code ⟨⟩
    exact finished_resolved h hall
  · have hplace : .place label ∉ steps := fun hmem => hmiss ((target_ne_none_iff h label).2 hmem)
    rw [herr]
    refine ⟨⟨by simp, fun hall => ?_⟩, by simp, ?_⟩
    · exact absurd (hall onFalse label (by simp [heq])) hplace
    · rintro e ⟨⟩
      exact ⟨label, ⟨front, onFalse, back, heq, hplace, fun _ _ hmem => (hits_iff h _).1
        (hfront _ hmem) _ _ rfl⟩, rfl⟩

def woven : List Step :=
  [.newLabel, .newLabel, .place 0, .push (.br 7), .jumpIfFalse 1, .jump 0, .place 1, .push .prn, .place 0, .jump 1]

theorem finished_woven : Issued woven ∧ (run woven).finish = .ok [.br 7, .bf 2, .br 2, .prn, .br (-1)] ∧
    Finished woven [.br 7, .bf 2, .br 2, .prn, .br (-1)] :=
  have issued : Issued woven := by decide
  ⟨issued, rfl, (finish_run issued).2.1 _ rfl⟩

end Bies.CodeBuffer
