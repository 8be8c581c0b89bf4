import Bies.Node
import Mathlib.Logic.Relation

/-!
# What stands inside a node

`inside true n` lists everything inside `n`; `inside false n` stops at lambdas, whose bodies belong to
other functions. The numbers of `n` and of all that stands inside it are `n.ids`, and `n.ownIds` are
those that lowering `n` comes upon.
-/

namespace Bies
namespace Node

mutual

/-- The nodes inside, in order; those in the bodies of lambdas only if `deep`. -/
def inside (deep : Bool) : Node → List Node
  | .decl _ _ _ value | .ret _ value => value :: inside deep value
  | .letIn _ decls body => insideAll deep decls ++ (body :: inside deep body)
  | .binary _ left _ right | .comparison _ left _ right =>
    (left :: inside deep left) ++ (right :: inside deep right)
  | .ifThen _ test body => (test :: inside deep test) ++ (body :: inside deep body)
  | .ifElse _ test body last | .ifElseIf _ test body last =>
    (test :: inside deep test) ++ (body :: inside deep body) ++ (last :: inside deep last)
  | .block _ nodes | .call _ _ nodes | .print _ nodes | .list _ nodes => insideAll deep nodes
  | .lambda _ _ body _ => if deep then body :: inside deep body else []
  | .access _ _ index => index :: inside deep index
  | .funDecl .. | .int .. | .float .. | .str .. | .ident .. => []
termination_by structural n => n

def insideAll (deep : Bool) : List Node → List Node
  | [] => []
  | n :: rest => (n :: inside deep n) ++ insideAll deep rest
termination_by structural nodes => nodes

end

def isLambda : Node → Bool
  | .lambda .. => true
  | _ => false

def isConditional : Node → Bool
  | .ifThen .. | .ifElse .. | .ifElseIf .. => true
  | _ => false

def ids (n : Node) : List NodeId := n.id :: (n.inside true).map id

def ownIds (n : Node) : List NodeId := n.id :: (n.inside false).map id

section
variable {n m : Node} {i : NodeId}

theorem insideAll_append (deep : Bool) (a b : List Node) :
    insideAll deep (a ++ b) = insideAll deep a ++ insideAll deep b := by
  induction a with
  | nil => rfl
  | cons n a ih => simp [insideAll, ih]

theorem insideAll_eq_flatMap (deep : Bool) (nodes : List Node) :
    insideAll deep nodes = nodes.flatMap fun n => n :: inside deep n := by
  induction nodes with
  | nil => rfl
  | cons n rest ih => simp [insideAll, ih]

theorem mem_insideAll {deep : Bool} {nodes : List Node} :
    m ∈ insideAll deep nodes ↔ ∃ n ∈ nodes, m = n ∨ m ∈ n.inside deep := by
  simp [insideAll_eq_flatMap]

theorem inside_eq (deep : Bool) (h : n.isLambda = false) : n.inside deep = insideAll deep n.children := by
  cases n <;> simp [inside, insideAll, children, insideAll_append, isLambda] at h ⊢

theorem inside_true (n : Node) : n.inside true = insideAll true n.children := by
  cases n <;> simp [inside, insideAll, children, insideAll_append]

mutual

theorem inside_sublist : ∀ n : Node, (n.inside false).Sublist (n.inside true)
  | .decl _ _ _ value | .ret _ value | .access _ _ value => by
    unfold inside
    exact (inside_sublist value).cons_cons _
  | .letIn _ decls body => by
    unfold inside
    exact (insideAll_sublist decls).append ((inside_sublist body).cons_cons _)
  | .binary _ left _ right | .comparison _ left _ right | .ifThen _ left right => by
    unfold inside
    exact ((inside_sublist left).cons_cons _).append ((inside_sublist right).cons_cons _)
  | .ifElse _ test body last | .ifElseIf _ test body last => by
    unfold inside
    exact (((inside_sublist test).cons_cons _).append ((inside_sublist body).cons_cons _)).append
      ((inside_sublist last).cons_cons _)
  | .block _ nodes | .call _ _ nodes | .print _ nodes | .list _ nodes => by
    unfold inside
    exact insideAll_sublist nodes
  | .lambda .. => by simp [inside]
  | .funDecl .. | .int .. | .float .. | .str .. | .ident .. => by simp [inside]

theorem insideAll_sublist : ∀ nodes : List Node, (insideAll false nodes).Sublist (insideAll true nodes)
  | [] => by simp [insideAll]
  | n :: rest => by
    unfold insideAll
    exact ((inside_sublist n).cons_cons _).append (insideAll_sublist rest)

end

theorem ownIds_sublist (n : Node) : n.ownIds.Sublist n.ids := ((inside_sublist n).map id).cons_cons _

theorem id_mem_ownIds (n : Node) : n.id ∈ n.ownIds := by simp [ownIds]

theorem id_mem_ids (n : Node) : n.id ∈ n.ids := by simp [ids]

mutual

theorem contains_eq_any : ∀ n : Node, n.contains i = (n.inside true).any (·.id == i)
  | .decl _ _ _ value | .ret _ value | .access _ _ value => by
    simp [contains, inside, contains_eq_any value]
  | .letIn _ decls body => by
    simp [contains, inside, anyWithin_eq_any decls, contains_eq_any body, Bool.or_assoc]
  | .binary _ left _ right | .comparison _ left _ right | .ifThen _ left right => by
    simp [contains, inside, contains_eq_any left, contains_eq_any right, Bool.or_assoc]
  | .ifElse _ test body last | .ifElseIf _ test body last => by
    simp [contains, inside, contains_eq_any test, contains_eq_any body, contains_eq_any last, Bool.or_assoc]
  | .block _ nodes | .call _ _ nodes | .print _ nodes | .list _ nodes => by
    simp [contains, inside, anyWithin_eq_any nodes]
  | .lambda _ _ body _ => by simp [contains, inside, contains_eq_any body]
  | .funDecl .. | .int .. | .float .. | .str .. | .ident .. => by simp [contains, inside]

theorem anyWithin_eq_any : ∀ nodes : List Node, anyWithin i nodes = (insideAll true nodes).any (·.id == i)
  | [] => by simp [anyWithin, insideAll]
  | n :: rest => by simp [anyWithin, insideAll, contains_eq_any n, anyWithin_eq_any rest, Bool.or_assoc]

end

theorem contains_iff : n.contains i = true ↔ i ∈ (n.inside true).map id := by
  simp [contains_eq_any]

theorem mem_ids_of_contains (h : n.contains i = true) : i ∈ n.ids :=
  List.mem_cons_of_mem _ (contains_iff.mp h)

theorem ids_eq (n : Node) : n.ids = n.id :: n.children.flatMap ids := by
  rw [ids, inside_true, insideAll_eq_flatMap, List.map_flatMap]
  rfl

theorem ownIds_eq (h : n.isLambda = false) : n.ownIds = n.id :: n.children.flatMap ownIds := by
  rw [ownIds, inside_eq false h, insideAll_eq_flatMap, List.map_flatMap]
  rfl

end

section
variable {deep : Bool} {m k n : Node}

def IsPart (deep : Bool) (c p : Node) : Prop := c ∈ p.children ∧ (p.isLambda = true → deep = true)

theorem mem_inside : m ∈ n.inside deep ↔ ∃ c : Node, c.IsPart deep n ∧ (m = c ∨ m ∈ c.inside deep) := by
  by_cases h : n.isLambda = true → deep = true
  · have hinside : n.inside deep = insideAll deep n.children := by
      cases hl : n.isLambda with
      | false => exact inside_eq deep hl
      | true =>
        rw [h hl]
        exact inside_true n
    rw [hinside, mem_insideAll]
    exact exists_congr fun c => and_congr_left fun _ => ⟨fun hc => ⟨hc, h⟩, And.left⟩
  · refine ⟨fun hm => ?_, fun ⟨c, hc, _⟩ => absurd hc.2 h⟩
    cases n <;> simp_all [inside, isLambda]

theorem length_inside_child {c : Node} (h : c ∈ n.children) : (c.inside true).length < (n.inside true).length := by
  obtain ⟨before, behind, hchildren⟩ := List.append_of_mem h
  rw [inside_true n, hchildren, insideAll_append, insideAll]
  simp only [List.length_append, List.length_cons]
  omega

theorem transGen_of_mem_inside (n : Node) (h : m ∈ n.inside deep) : Relation.TransGen (IsPart deep) m n := by
  obtain ⟨c, hc, rfl | hm⟩ := mem_inside.mp h
  · exact .single hc
  · exact .tail (transGen_of_mem_inside c hm) hc
termination_by (n.inside true).length
decreasing_by exact length_inside_child hc.1

theorem mem_inside_iff : m ∈ n.inside deep ↔ Relation.TransGen (IsPart deep) m n := by
  refine ⟨transGen_of_mem_inside n, fun h => ?_⟩
  induction h with
  | single hc => exact mem_inside.mpr ⟨_, hc, .inl rfl⟩
  | tail _ hc ih => exact mem_inside.mpr ⟨_, hc, .inr ih⟩

theorem inside_trans (hm : m ∈ n.inside deep) (hk : k ∈ m.inside deep) : k ∈ n.inside deep :=
  mem_inside_iff.mpr ((mem_inside_iff.mp hk).trans (mem_inside_iff.mp hm))

theorem length_inside_lt (h : m ∈ n.inside true) : (m.inside true).length < (n.inside true).length := by
  induction mem_inside_iff.mp h with
  | single hc => exact length_inside_child hc.1
  | tail hm hc ih => exact Nat.lt_trans (ih (mem_inside_iff.mpr hm)) (length_inside_child hc.1)

theorem ids_subset_of_mem_inside (h : m ∈ n.inside true) : m.ids ⊆ n.ids := by
  intro i hi
  rcases List.mem_cons.mp hi with rfl | hi
  · exact List.mem_cons_of_mem _ (List.mem_map_of_mem h)
  · obtain ⟨k, hk, rfl⟩ := List.mem_map.mp hi
    exact List.mem_cons_of_mem _ (List.mem_map_of_mem (inside_trans h hk))

end

section
variable (tag : Tag) (name : String) (test body last value : Node) (nodes : List Node)

attribute [local simp] children Node.id Node.tag

theorem ownIds_decl (constant : Bool) : (decl tag constant name value).ownIds = tag.id :: value.ownIds := by
  rw [ownIds_eq rfl]; simp

theorem ownIds_ret : (ret tag value).ownIds = tag.id :: value.ownIds := by
  rw [ownIds_eq rfl]; simp

theorem ownIds_letIn : (letIn tag nodes body).ownIds = tag.id :: (nodes.flatMap ownIds ++ body.ownIds) := by
  rw [ownIds_eq rfl]; simp

theorem ownIds_block : (block tag nodes).ownIds = tag.id :: nodes.flatMap ownIds := by
  rw [ownIds_eq rfl]; simp

theorem ownIds_print : (print tag nodes).ownIds = tag.id :: nodes.flatMap ownIds := by
  rw [ownIds_eq rfl]; simp

theorem ownIds_ifThen : (ifThen tag test body).ownIds = tag.id :: (test.ownIds ++ body.ownIds) := by
  rw [ownIds_eq rfl]; simp

theorem ownIds_ifElse :
    (ifElse tag test body last).ownIds = tag.id :: (test.ownIds ++ (body.ownIds ++ last.ownIds)) := by
  rw [ownIds_eq rfl]; simp

theorem ownIds_ifElseIf :
    (ifElseIf tag test body last).ownIds = tag.id :: (test.ownIds ++ (body.ownIds ++ last.ownIds)) := by
  rw [ownIds_eq rfl]; simp

end

end Node
end Bies
