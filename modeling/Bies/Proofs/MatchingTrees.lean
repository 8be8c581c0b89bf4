import Bies.Proofs.AlikePrograms
import Bies.Proofs.ParsingSimulation
import Bies.Proofs.ProgramSimulation
import Bies.Proofs.TokenText

/-!
# Trees of two sources

Trees match if they have one shape, the same texts and spans that stand for each other, except that in any place
there may be different arithmetic of the same value. They are compiled to the same lines, or the errors are
alike.
-/

namespace Bies

open List

section
variable (spans : Span → Span → Prop) (source source' : List Char)

inductive Tree.Matches : Tree → Tree → Prop where
  | paired {t t'} : spans t.span t'.span → t.Paired source source' IsPlain Tree.Matches t' → Matches t t'
  | value {t t' n} : spans t.span t'.span → t.IsNumber → t'.IsNumber →
    (Program.exprOf source t).Whole t.span n → (Program.exprOf source' t').Whole t'.span n → Matches t t'

def Program.matching : Simulation source source' where
  trees := Tree.Matches spans source source'
  spans := spans
  names := IsPlain
  exprs := Expr.Alike spans
  bodies := Body.Alike spans
  stmts := Stmt.Alike spans
  tree h := by
    cases h with
    | paired _ h => exact .inl h
    | value hspan ht ht' hwhole hwhole' => exact .inr ⟨ht, ht', .whole hspan hwhole hwhole'⟩
  span h := by
    cases h with
    | paired hspan => exact hspan
    | value hspan => exact hspan
  expr h := .paired h
  body h := .paired h
  stmt h := .paired h
  declared hspan hname h := by
    cases h with
    | whole hspans hwhole hwhole' =>
      have h := Expr.Alike.whole hspans hwhole hwhole'
      cases hwhole <;> cases hwhole' <;> exact .paired (.decl hspan hname h)
    | paired hpaired =>
      cases id hpaired with
      | lambda hspans hparams hbody => exact .paired (.lambdaDecl hspan hspans hname hparams hbody)
      | _ => exact .paired (.decl hspan hname (.paired hpaired))

structure Token.Same (t t' : Token) : Prop where
  kind_eq : t.kind = t'.kind
  text_eq : t.text = t'.text
  text_span : t.span.text source = t.text
  text_span' : t'.span.text source' = t'.text
  span : spans t.span t'.span
  isPlain : t.kind = .identifier → IsPlain t.text

end

section
variable {spans : Span → Span → Prop} {source source' : List Char} {t t' : Token} {kind : Tree.Kind}

theorem Token.Same.leaf (h : t.Same spans source source' t') (hkind : kind = .identifier → t.kind = .identifier) :
    Tree.Matches spans source source' (.leaf kind t.span) (.leaf kind t'.span) := by
  refine .paired h.span (.node (fun _ => ?_) (fun hname => ?_) .nil)
  · rw [h.text_span, h.text_span', h.text_eq]
  · rw [h.text_span]
    exact h.isPlain (hkind hname)

theorem Tree.Matches.node {span span' : Span} (hspan : spans span span') {ts ts' : List Tree}
    (hkind : kind.isLeaf = false) (h : Forall₂ (Tree.Matches spans source source') ts ts') :
    Tree.Matches spans source source' (.node kind span ts) (.node kind span' ts') :=
  .paired hspan (.node (fun htoken => by rw [hkind] at htoken; cases htoken)
    (fun hname => by rw [hname] at hkind; cases hkind) h)

theorem compileTree_matches (options : Options) {t t' : Tree} (h : Tree.Matches spans source source' t t') :
    (compileTree options source t).Agree (CompileError.Alike spans)
      (fun a b => a.lines = b.lines ∧ Forall₂ (fun n n' => spans n.span n'.span) a.skipped b.skipped)
      (compileTree options source' t') :=
  Program.assemble_alike options ((Program.matching spans source source').ofTree h)

end

theorem Token.isPlain_of_mem_scanFrom {start : Nat} {cs : List Char} {t : Token} (ht : t ∈ scanFrom start cs)
    (hkind : t.kind = .identifier) : IsPlain t.text := by
  intro hmem
  have := isIdentifierPart_of_mem_scanFrom start cs t ht hkind '#' hmem
  exact absurd this (by decide)

end Bies
