import Bies.Proofs.Printing
import Bies.Proofs.SourceOrder
import Bies.Proofs.TokenGaps
import Mathlib.Data.Option.Basic

/-!
# Signs apart from their numbers

A minus sign is read with its number as one text, and so is a gap between them. No number is read from such a
text: a program in which nothing is malformed has none.
-/

namespace Bies

open List

def signApart : List Char → Bool
  | '-' :: c :: _ => opensGap c
  | _ => false

theorem signApart_cases {text : List Char} (h : signApart text = true) :
    ∃ c rest, text = '-' :: c :: rest ∧ opensGap c = true := by
  unfold signApart at h
  split at h
  · exact ⟨_, _, rfl, h⟩
  · cases h

theorem opensGap_cases {c : Char} (h : opensGap c = true) : c ≠ '.' ∧ c.toLower ≠ 'i' ∧ c.toLower ≠ 'n' := by
  rw [opensGap, Bool.or_eq_true, beq_iff_eq] at h
  rcases h with h | rfl
  · obtain ⟨n, hn, rfl⟩ := Outline.isBlank_cases h
    have hall : ∀ n ∈ blankRanges.flatMap fun r => List.range' r.1 (r.2 + 1 - r.1),
        Char.ofNat n ≠ '.' ∧ (Char.ofNat n).toLower ≠ 'i' ∧ (Char.ofNat n).toLower ≠ 'n' := by decide +kernel
    exact hall n hn
  · decide

theorem readInt?_of_signApart {text : List Char} (h : signApart text = true) : readInt? text = none := by
  obtain ⟨c, rest, rfl, hc⟩ := signApart_cases h
  simp [readInt?, splitSign, readDigits?, isDigit_of_opensGap hc]

theorem readFloat?_of_signApart {text : List Char} (h : signApart text = true) : readFloat? text = none := by
  obtain ⟨c, rest, rfl, hc⟩ := signApart_cases h
  obtain ⟨hpoint, hi, hn⟩ := opensGap_cases hc
  have hword : ∀ w ∈ ["inf", "infinity", "nan"], String.ofList ((c :: rest).map Char.toLower) ≠ w := by
    intro w hw heq
    have hhead : w.toList.head? = some c.toLower := by simp [← heq]
    have hall : ∀ w ∈ ["inf", "infinity", "nan"], w.toList.head? = some 'i' ∨ w.toList.head? = some 'n' := by
      decide
    have h := hall w hw
    rw [hhead, Option.some_inj, Option.some_inj] at h
    exact h.elim hi hn
  have hdecimal : readDecimal? (c :: rest) = none := by
    have htake : (c :: rest).takeWhile Char.isDigit = [] := by simp [isDigit_of_opensGap hc]
    have hdrop : (c :: rest).dropWhile Char.isDigit = c :: rest := by simp [isDigit_of_opensGap hc]
    refine Option.eq_none_iff_forall_ne_some.mpr fun x hx => ?_
    unfold readDecimal? at hx
    dsimp only at hx
    rw [htake, hdrop] at hx
    obtain ⟨_, hguard, _⟩ := Option.bind_eq_some_iff.mp hx
    have hdigits := (Option.guard_eq_some' _).mp hguard
    split at hdigits
    next heq => exact hpoint (List.cons.inj heq).1
    next => exact hdigits rfl
  rw [List.forall_mem_cons, List.forall_mem_cons, List.forall_mem_singleton] at hword
  simp only [readFloat?, splitSign, hword, hdecimal, or_self, if_false]
  rfl

mutual

def Outline.looseSign : Outline → Bool
  | .node kind text children =>
    if kind.isLeaf then (kind == .integer || kind == .float) && signApart text.toList else looseSigns children

def Outline.looseSigns : List Outline → Bool
  | [] => false
  | o :: os => o.looseSign || looseSigns os

end

namespace Program

variable {source : List Char}

theorem looseSign_of_kind {t : Tree} (h : t.kind = .identifier ∨ t.kind = .operator) :
    (t.outline source).looseSign = false := by
  obtain ⟨kind, span, ts⟩ := t
  obtain rfl | rfl := h <;> rfl

theorem looseSign_of_nameOf? {t : Tree} {name : String} (h : nameOf? source t = some name) :
    (t.outline source).looseSign = false := looseSign_of_kind (.inl (nameOf?_eq_some h).1)

theorem looseSign_of_paramsOf {t : Tree} {names : List String} (h : paramsOf source t = .ok names) :
    (t.outline source).looseSign = false := by
  obtain ⟨kind, span, ps⟩ := t
  unfold paramsOf at h
  split at h
  next hkind =>
    obtain rfl : kind = .parameterList := hkind
    rw [Tree.outline, Outline.looseSign, if_neg nofun]
    rw [Tree.children] at h
    induction ps generalizing names with
    | nil => rfl
    | cons p ps ih =>
      rw [List.mapM_cons] at h
      cases hname : nameOf? source p with
      | none =>
        rw [hname] at h
        cases h
      | some name =>
        rw [hname] at h
        generalize hrest : List.mapM (m := Except (Span × Fault)) _ ps = rest at h
        cases rest with
        | error e => cases h
        | ok names => rw [Tree.outlines, Outline.looseSigns, looseSign_of_nameOf? hname, ih hrest, Bool.or_self]
  next => cases h

theorem looseSigns_eq_false {ts : List Tree} : Outline.looseSigns (Tree.outlines source ts) = false ↔
    ∀ t ∈ ts, (t.outline source).looseSign = false := by
  induction ts with
  | nil => simp [Tree.outlines, Outline.looseSigns]
  | cons t ts ih => simp [Tree.outlines, Outline.looseSigns, ih]

theorem looseSign_node {kind : Tree.Kind} {span : Span} {ts : List Tree} (hkind : kind.isLeaf = false) :
    ((Tree.node kind span ts).outline source).looseSign = false ↔
    ∀ t ∈ ts, (t.outline source).looseSign = false := by
  rw [← looseSigns_eq_false, Tree.outline, Outline.looseSign, hkind]
  rfl

structure Noticed (source : List Char) (t : Tree) : Prop where
  expr : (exprOf source t).Within faultless → (t.outline source).looseSign = false
  block : Stmt.AllWithin faultless (blockOf source t) → (t.outline source).looseSign = false
  stmt : (stmtOf source t).Within faultless → (t.outline source).looseSign = false
  decl : (inDeclOf source t).Within faultless → (t.outline source).looseSign = false
  args : Expr.AllWithin faultless (exprsOf source t.children) →
    ∀ arg ∈ t.children, (arg.outline source).looseSign = false
  bodies : ∀ body ∈ t.children, Stmt.AllWithin faultless (blockOf source body) →
    (body.outline source).looseSign = false
  cond : ∀ span, (ifOf source span t.children).Within faultless →
    ∀ part ∈ t.children, (part.outline source).looseSign = false

section
variable {ts : List Tree} (span : Span) (h : ∀ t ∈ ts, Noticed source t)

include h

theorem exprsOf_noticed (w : Expr.AllWithin faultless (exprsOf source ts)) :
    ∀ t ∈ ts, (t.outline source).looseSign = false :=
  fun t ht => (h t ht).expr (allWithin_exprsOf.mp w t ht)

theorem stmtsOf_noticed (w : Stmt.AllWithin faultless (stmtsOf source ts)) :
    ∀ t ∈ ts, (t.outline source).looseSign = false := by
  rw [stmtsOf_eq_map] at w
  exact fun t ht => (h t ht).stmt (allWithin_map.mp w t ht)

theorem declOf_noticed {constant : Bool} (w : (declOf source constant span ts).Within faultless) :
    ∀ t ∈ ts, (t.outline source).looseSign = false := by
  unfold declOf at w
  split at w
  · rename_i name value
    split at w
    · exact w.elim
    next hname =>
      have hvalue : (exprOf source value).Within faultless := by
        split at w
        next heq =>
          rw [heq]
          exact w.2
        next => exact w
      simp [looseSign_of_nameOf? hname, (h value (by simp)).expr hvalue]
  · exact w.elim

theorem exprOf_noticed {kind : Tree.Kind} (w : (exprOf source (.node kind span ts)).Within faultless) :
    ((Tree.node kind span ts).outline source).looseSign = false := by
  unfold exprOf at w
  split at w
  case h_1 =>
    refine Bool.eq_false_iff.mpr fun hsign => ?_
    have hsign : signApart (span.text source).toList = true := hsign
    rw [readInt?_of_signApart hsign] at w
    exact w
  case h_2 =>
    refine Bool.eq_false_iff.mpr fun hsign => ?_
    have hsign : signApart (span.text source).toList = true := hsign
    rw [readFloat?_of_signApart hsign] at w
    exact w
  case h_3 | h_4 => rfl
  case h_5 | h_6 =>
    rw [looseSign_node rfl]
    split at w
    · rename_i left op right
      split at w
      next hop =>
        simp [looseSign_of_kind (.inr hop), (h left (by simp)).expr w.2.1, (h right (by simp)).expr w.2.2]
      next => exact w.elim
    · exact w.elim
  case h_7 =>
    rw [looseSign_node rfl]
    split at w
    · rename_i name kind s args
      split at w
      · exact w.elim
      next hname =>
        split at w
        next hkind =>
          subst hkind
          have hargs : ((Tree.node .argumentList s args).outline source).looseSign = false :=
            (looseSign_node rfl).mpr ((h (.node .argumentList s args) (by simp)).args w)
          simp [looseSign_of_nameOf? hname, hargs]
        next => exact w.elim
    · exact w.elim
  case h_8 =>
    rw [looseSign_node rfl]
    split at w
    · rename_i name index
      split at w
      · exact w.elim
      next hname => simp [looseSign_of_nameOf? hname, (h index (by simp)).expr w]
    · exact w.elim
  case h_9 => exact (looseSign_node rfl).mpr (exprsOf_noticed h w)
  case h_10 =>
    rw [looseSign_node rfl]
    split at w
    · rename_i params body
      split at w
      · exact w.elim
      next hparams =>
        split at w
        · simp [looseSign_of_paramsOf hparams, (h body (by simp)).block w]
        · simp [looseSign_of_paramsOf hparams, (h body (by simp)).expr w]
    · exact w.elim
  case h_11 => exact w.elim

theorem ifOf_noticed (w : (ifOf source span ts).Within faultless) :
    ∀ t ∈ ts, (t.outline source).looseSign = false := by
  unfold ifOf at w
  split at w
  · rename_i test body
    simp [(h test (by simp)).expr w.1, (h body (by simp)).block w.2]
  · rename_i test body s children
    have hlink : ((Tree.node .elseIf s children).outline source).looseSign = false :=
      (looseSign_node rfl).mpr ((h (.node .elseIf s children) (by simp)).cond s w.2.2.2)
    simp [(h test (by simp)).expr w.1, (h body (by simp)).block w.2.1, hlink]
  · rename_i test body s other
    have hother := (h (.node .elseStatement s [other]) (by simp)).bodies other (by simp [Tree.children]) w.2.2
    have helse : ((Tree.node .elseStatement s [other]).outline source).looseSign = false := by
      rw [looseSign_node rfl]
      simp [hother]
    simp [(h test (by simp)).expr w.1, (h body (by simp)).block w.2.1, helse]
  · exact w.2.2.1.elim
  · exact w.2.2.1.elim
  · exact w.elim

theorem funOf_noticed (w : (funOf source span ts).Within faultless) :
    ∀ t ∈ ts, (t.outline source).looseSign = false := by
  unfold funOf at w
  split at w
  · rename_i name params bodySpan statements
    split at w
    · exact w.elim
    next hname =>
      split at w
      · exact w.elim
      next hparams =>
        have hbody := (h (.node .block bodySpan statements) (by simp)).block (by rw [blockOf]; exact w.2)
        simp [looseSign_of_nameOf? hname, looseSign_of_paramsOf hparams, hbody]
  · exact w.elim
  · exact w.elim

theorem stmtOf_noticed {kind : Tree.Kind} (w : (stmtOf source (.node kind span ts)).Within faultless) :
    ((Tree.node kind span ts).outline source).looseSign = false := by
  unfold stmtOf at w
  split at w
  case h_1 | h_2 => exact (looseSign_node rfl).mpr (declOf_noticed span h w)
  case h_3 =>
    rw [looseSign_node rfl]
    rcases ts.eq_nil_or_concat with rfl | ⟨decls, body, rfl⟩
    · exact fun _ ht => absurd ht List.not_mem_nil
    · rw [List.concat_eq_append] at *
      rw [letInOf_append] at w
      rw [List.forall_mem_append, List.forall_mem_singleton]
      exact ⟨fun d hd => (h d (by simp [hd])).decl (allWithin_map.mp w.1 d hd), (h body (by simp)).block w.2⟩
  case h_4 => exact (looseSign_node rfl).mpr (funOf_noticed span h w)
  case h_5 => exact (looseSign_node rfl).mpr (ifOf_noticed span h w)
  case h_6 => exact (looseSign_node rfl).mpr (stmtsOf_noticed h w)
  case h_7 | h_9 =>
    rw [looseSign_node rfl]
    split at w
    · rename_i value
      simp [(h value (by simp)).expr w]
    · exact w.elim
  case h_8 =>
    rw [looseSign_node rfl]
    split at w
    · rename_i s args
      have hargs : ((Tree.node .argumentList s args).outline source).looseSign = false :=
        (looseSign_node rfl).mpr ((h (.node .argumentList s args) (by simp)).args w)
      simp [hargs]
    · exact w.elim
    · exact w.elim
  case h_10 => exact w.elim

end

theorem noticed (t : Tree) : Noticed source t := by
  refine treeInduction (fun kind span ts h => ?_) t
  refine ⟨exprOf_noticed span h, fun w => ?_, stmtOf_noticed span h, fun w => ?_, exprsOf_noticed h,
    fun t ht => (h t ht).block, fun s => ifOf_noticed s h⟩
  · unfold blockOf at w
    split at w
    next heq =>
      cases heq
      exact (looseSign_node rfl).mpr (stmtsOf_noticed h w)
    next => exact w.1.elim
  · unfold inDeclOf at w
    split at w
    next heq =>
      cases heq
      exact (looseSign_node rfl).mpr (declOf_noticed _ h w)
    next heq =>
      cases heq
      exact (looseSign_node rfl).mpr (declOf_noticed _ h w)
    next => exact w.elim

theorem looseSign_of_ofTree {t : Tree} (h : Stmt.AllWithin faultless (ofTree source t)) :
    (t.outline source).looseSign = false := by
  obtain ⟨kind, span, ts⟩ := t
  cases kind
  case program => exact (looseSign_node rfl).mpr (stmtsOf_noticed (fun t _ => noticed t) h)
  all_goals exact h.1.elim

end Program
end Bies
