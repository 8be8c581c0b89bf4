import Bies.Proofs.LooseSigns
import Bies.Proofs.MatchingTrees

/-!
# Parsing two sources

Two sources with the same tokens are parsed side by side. The trees match, unless a minus sign stands apart from
its number in one of the sources: the two are read as one text, and the gap between them is part of it.
-/

namespace Bies

open List

section
variable (s s' : List Char)

def Tree.Similar (t t' : Tree) : Prop :=
  (t.outline s).looseSign = false → (t'.outline s').looseSign = false → Tree.Matches (fun _ _ => True) s s' t t'

end

section
variable {s s' : List Char}

theorem Tree.Similar.node {kind : Tree.Kind} {span span' : Span} {ts ts' : List Tree} (hkind : kind.isLeaf = false)
    (h : Forall₂ (Similar s s') ts ts') : Similar s s' (.node kind span ts) (.node kind span' ts') := by
  intro hl hl'
  rw [Program.looseSign_node hkind] at hl hl'
  refine .node trivial hkind ?_
  induction h with
  | nil => exact .nil
  | cons ht _ ih =>
    rw [forall_mem_cons] at hl hl'
    exact .cons (ht hl.1 hl'.1) (ih hl.2 hl'.2)

namespace Parser

theorem eq_nil_of_signApart {gap cs : List Char} (hgap : IsGap gap) (h : signApart (['-'] ++ (gap ++ cs)) = false) :
    gap = [] := by
  cases gap with
  | nil => rfl
  | cons c gap =>
    have hc : opensGap c = true := hgap c rfl
    rw [show signApart (['-'] ++ (c :: gap ++ cs)) = opensGap c from rfl, hc] at h
    cases h

theorem looseSign_number (t : Token) (span : Span) :
    ((Tree.leaf (numberKind t) span).outline s).looseSign = signApart (span.text s).toList := by
  unfold numberKind
  split <;> rfl

theorem similar_signed {m m' t t' : Token} {us us' : List Token} (hstand : Token.Stand s (m :: t :: us))
    (hstand' : Token.Stand s' (m' :: t' :: us')) (hm : m.isSymbol "-" = true) (hmm : m.text = m'.text)
    (htt : t.text = t'.text) :
    Tree.Similar s s' (.leaf (numberKind t) (m.span.join t.span)) (.leaf (numberKind t') (m'.span.join t'.span)) := by
  have hminus : m.text.toList = ['-'] := by
    rw [Token.isSymbol, Bool.and_eq_true, beq_iff_eq] at hm
    rw [hm.2]
    rfl
  have hminus' : m'.text.toList = ['-'] := by rw [← hmm, hminus]
  have hkind : numberKind t = numberKind t' := by
    unfold numberKind
    rw [htt]
  obtain _ | ⟨-, hjoin, -⟩ := hstand
  obtain _ | ⟨-, hjoin', -⟩ := hstand'
  obtain ⟨gap, hgap, htext, -⟩ := hjoin t rfl
  obtain ⟨gap', hgap', htext', -⟩ := hjoin' t' rfl
  rw [hminus] at htext
  rw [hminus'] at htext'
  intro hl hl'
  rw [looseSign_number, htext, String.toList_ofList] at hl
  rw [looseSign_number, htext', String.toList_ofList] at hl'
  rw [eq_nil_of_signApart hgap hl] at htext
  rw [eq_nil_of_signApart hgap' hl'] at htext'
  rw [hkind]
  refine .paired trivial (.node (fun _ => by rw [htext, htext', htt]) (fun hname => ?_) .nil)
  exact absurd hname (numberKind_ne_identifier t')

variable (s s') in
def similar (stop stop' : Finish) : Simulation stop stop' where
  tokens := Token.Same (fun _ _ => True) s s'
  trees := Tree.Similar s s'
  spans _ _ := True
  numbers _ _ _ _ := False
  kind_eq h := h.kind_eq
  text_eq h := h.text_eq
  span _ := trivial
  ends := trivial
  join _ _ := trivial
  leaf h hkind _ _ := h.leaf hkind
  node hkind h := .node hkind h
  begins := @Simulation.not_begins
  first h := h.elim
  shorter := @Simulation.not_shorter
  expression h := h.elim

theorem beside_similar {stop stop' : Finish} {us us' : List Token}
    (h : Forall₂ (fun t t' : Token => t.kind = t'.kind ∧ t.text = t'.text) us us') (hstand : Token.Stand s us)
    (hstand' : Token.Stand s' us') (hplain : ∀ t ∈ us, t.kind = .identifier → IsPlain t.text) :
    (similar s s' stop stop').Beside false us us' := by
  induction h with
  | nil => exact .nil
  | @cons t t' us us' ht hus ih =>
    have hsigned : ∀ u u', us.head? = some u → us'.head? = some u' → t.isSymbol "-" = true → Tree.Similar s s'
        (.leaf (numberKind u) (t.span.join u.span)) (.leaf (numberKind u') (t'.span.join u'.span)) := by
      intro u u' hu hu' hminus
      cases hus with
      | nil => cases hu
      | cons htt =>
        cases hu
        cases hu'
        exact similar_signed hstand hstand' hminus ht.2 htt.2
    obtain _ | ⟨htext, -, hstand⟩ := hstand
    obtain _ | ⟨htext', -, hstand'⟩ := hstand'
    rw [forall_mem_cons] at hplain
    exact .cons ⟨ht.1, ht.2, htext, htext', trivial, hplain.1⟩ hsigned (ih hstand hstand' hplain.2)

end Parser
end
end Bies
