import Bies.Proofs.PairedParsing

/-!
# Layout

Two sources with the same tokens give the same lines, or both give none. There is one exception: a source with a gap
between a minus sign and its number gives none, whatever the other gives.
-/

namespace Bies

open List

section
variable {s s' : List Char}

def tokenTexts (source : List Char) : List (TokenKind × String) :=
  ((Token.scan source).filter (·.kind ≠ .comment)).map fun t => (t.kind, t.text)

/-- Some number of the source has a gap behind its sign. -/
def hasLooseSign (source : List Char) : Bool :=
  (Tree.parse source).toOption.any fun tree => (tree.outline source).looseSign

theorem Tree.parse_similar (hsize : byteLength s < 2 ^ 32) (hsize' : byteLength s' < 2 ^ 32)
    (htokens : tokenTexts s = tokenTexts s') :
    match Tree.parse s, Tree.parse s' with
    | .ok t, .ok t' => Tree.Similar s s' t t'
    | .error _, .error _ => True
    | _, _ => False := by
  have hsame : Forall₂ (fun t t' : Token => t.kind = t'.kind ∧ t.text = t'.text)
      ((Token.scan s).filter (·.kind ≠ .comment)) ((Token.scan s').filter (·.kind ≠ .comment)) := by
    unfold tokenTexts at htokens
    rw [← forall₂_eq_eq_eq, forall₂_map_left_iff, forall₂_map_right_iff] at htokens
    exact htokens.imp fun _ _ h => Prod.mk.inj h
  obtain ⟨t, t', hparse, hparse', htrees⟩ | ⟨e, e', hparse, hparse', -⟩ :=
    Tree.parse_pairs (Parser.similar s s' _ _)
    (Parser.beside_similar hsame (Token.stand_scan hsize) (Token.stand_scan hsize')
      fun t ht => Token.isPlain_of_mem_scanFrom (mem_of_mem_filter ht))
  · rw [hparse, hparse']
    exact htrees
  · rw [hparse, hparse']
    trivial

theorem compileTree_looseSign (options : Options) {t : Tree} (h : (t.outline s).looseSign = true) :
    ∃ e, (compileTree options s t).result = .error e := by
  unfold compileTree Outcome.andThen
  cases hload : (FunctionTable.ofProgram (.ofTree s t)).result with
  | error e => exact ⟨e, rfl⟩
  | ok table =>
    have hfaultless := faultless_of_ofProgram (Program.ofTree_within t) hload
    rw [Program.looseSign_of_ofTree hfaultless] at h
    cases h

theorem compile_of_parse (options : Options) {t : Tree} (h : Tree.parse s = .ok t) :
    (compile options s).result = (compileTree options s t).result := by
  unfold compile
  rw [h]
  rfl

theorem compile_of_not_parse (options : Options) {e : ParseError} (h : Tree.parse s = .error e) :
    (compile options s).result = .error (.parse e) := by
  unfold compile
  rw [h]
  rfl

/-- Blanks and comments between tokens do not change what is compiled, unless they come between a minus sign and its
number on one side only. A source in which they do is not compiled. -/
theorem compile_of_tokenTexts_eq (options : Options) (hsize : byteLength s < 2 ^ 32) (hsize' : byteLength s' < 2 ^ 32)
    (htokens : tokenTexts s = tokenTexts s') :
    (hasLooseSign s = hasLooseSign s' →
      match (compile options s).result, (compile options s').result with
      | .ok a, .ok b => a.lines = b.lines
      | .error _, .error _ => True
      | _, _ => False) ∧
    (hasLooseSign s = true → ∃ e, (compile options s).result = .error e) := by
  have hparse := Tree.parse_similar hsize hsize' htokens
  unfold hasLooseSign
  split at hparse
  next t t' ht ht' =>
    rw [compile_of_parse options ht, compile_of_parse options ht', ht, ht']
    refine ⟨fun hloose => ?_, compileTree_looseSign options⟩
    have hloose : (t.outline s).looseSign = (t'.outline s').looseSign := hloose
    cases hl : (t.outline s).looseSign with
    | false =>
      obtain ⟨ha, hb, hlines, -⟩ | ⟨ha, hb, -⟩ := compileTree_matches options (hparse hl (hloose ▸ hl))
      · rw [ha, hb]
        exact hlines
      · rw [ha, hb]
        trivial
    | true =>
      obtain ⟨e, he⟩ := compileTree_looseSign options hl
      obtain ⟨e', he'⟩ := compileTree_looseSign options (hloose ▸ hl)
      rw [he, he']
      trivial
  next ht ht' =>
    rw [compile_of_not_parse options ht, compile_of_not_parse options ht', ht, ht']
    exact ⟨fun _ => trivial, nofun⟩
  next => exact hparse.elim

end

def closeSource : List Char := "fun f(a){return a-1}print(f(-5))".toList

def wideSource : List Char := "fun f ( a )\n { return a - 1 } // one less\nprint( f( -5 ) )".toList

theorem compile_of_wideSource : tokenTexts closeSource = tokenTexts wideSource ∧
    hasLooseSign closeSource = hasLooseSign wideSource ∧
    ∃ a b, (compile {} closeSource).result = .ok a ∧ (compile {} wideSource).result = .ok b ∧
      a.lines = b.lines := by
  have htokens : tokenTexts closeSource = tokenTexts wideSource := by decide +kernel
  have hloose : hasLooseSign closeSource = hasLooseSign wideSource := by decide +kernel
  have hcompile := (compile_of_tokenTexts_eq {} (by decide +kernel) (by decide +kernel) htokens).1 hloose
  refine ⟨htokens, hloose, ?_⟩
  split at hcompile
  next a b ha hb => exact ⟨a, b, ha, hb, hcompile⟩
  next he _ =>
    have hsome : (compile {} closeSource).result.toOption.isSome = true := by decide +kernel
    rw [he] at hsome
    cases hsome
  next => exact hcompile.elim

/-- With a blank behind its sign, the number is malformed. -/
theorem compile_ne_of_looseSource : tokenTexts "print(-5)".toList = tokenTexts "print(- 5)".toList ∧
    (compile {} "print(-5)".toList).result.toOption.map Assembly.lines =
      some ["$FUN $0 args:0 parent:$0", "LDV -5", "PRN", "HLT", "$END"] ∧
    (compile {} "print(- 5)".toList).result.toOption.isNone = true := by decide +kernel

end Bies
