import Bies.Proofs.Arithmetic
import Bies.Proofs.Brackets

/-!
# Arithmetic compiles like its value

A source with arithmetic on whole numbers in parentheses is compiled to the same lines as the source with the
value of the arithmetic in its place, or both are refused for the same kind of reason.
-/

namespace Bies

open List

namespace Parser

/-- Different arithmetic of the same value, and a closing parenthesis behind it on both sides. -/
inductive SameValue (source source' : List Char) : List Token → List Token → List Token → List Token → Prop where
  | mk {us us' vs vs' c c' n} : Amounts .sum us n → Amounts .sum us' n →
    Token.Stand source us → Token.Stand source' us' → c.IsPunct ")" → c'.IsPunct ")" →
    SameValue source source' (us ++ c :: vs) (us' ++ c' :: vs') (c :: vs) (c' :: vs')

section
variable {source source' : List Char} {t t' : Token} (h : t.Same (fun _ _ => True) source source' t')
include h

theorem kind_matching : t.kind = t'.kind := h.kind_eq

theorem text_matching : t.text = t'.text := h.text_eq

end

def matching (source source' : List Char) (stop stop' : Finish) : Simulation stop stop' where
  tokens := Token.Same (fun _ _ => True) source source'
  trees := Tree.Matches (fun _ _ => True) source source'
  spans _ _ := True
  numbers := SameValue source source'
  kind_eq := @kind_matching source source'
  text_eq := @text_matching source source'
  span _ := trivial
  ends := trivial
  join _ _ := trivial
  leaf := Token.Same.leaf
  node := .node trivial
  begins h := by
    obtain ⟨hus, hus', -, -, -, -⟩ := h
    exact ⟨hus.begins.1.append _, hus'.begins.1.append _⟩
  first _ := trivial
  shorter h := by
    obtain ⟨hus, hus', -, -, -, -⟩ := h
    have := hus.length_pos
    have := hus'.length_pos
    simp only [length_append]
    omega
  expression h hn hn' := by
    obtain ⟨hus, hus', hstand, hstand', hc, hc'⟩ := h
    obtain ⟨t, hnumber, hreads, hwhole⟩ := hus.exists_tree
    obtain ⟨t', hnumber', hreads', hwhole'⟩ := hus'.exists_tree
    exact ⟨t, t', (hreads.expression (hus.begins.2 _) hc).goes hn, (hreads'.expression (hus'.begins.2 _) hc').goes hn',
      .value trivial hnumber hnumber' (hwhole _ hstand) (hwhole' _ hstand')⟩

end Parser

theorem Token.Laid.beside {source source' before before' cs after after' : List Char} {ts ts' us us' : List Token}
    {stop stop' : Parser.Finish} (hsize : byteLength source < 2 ^ 32) (hsize' : byteLength source' < 2 ^ 32)
    (h : Laid before before' cs ts ts') (hplain : ∀ t ∈ ts, t.kind = .identifier → IsPlain t.text)
    (hrest : (us = [] ∧ us' = []) ∨ (∃ o, ts.getLast? = some o ∧ o.IsPunct "(") ∧
      (Parser.matching source source' stop stop').Beside true us us')
    (hsource : before ++ (cs ++ after) = source) (hsource' : before' ++ (cs ++ after') = source') :
    (Parser.matching source source' stop stop').Beside false (ts ++ us) (ts' ++ us') := by
  induction h with
  | nil =>
    obtain ⟨rfl, rfl⟩ | ⟨⟨o, ho, -⟩, -⟩ := hrest
    · exact .nil
    · cases ho
  | @cons before before' gap rest t t' ts ts' hgap hkind htext ht ht' hsome hts ih =>
    have hlaid : Laid before before' (gap ++ (t.text.toList ++ rest)) (t :: ts) (t' :: ts') :=
      .cons hgap hkind htext ht ht' hsome hts
    have htoken : t.Same (fun _ _ => True) source source' t' := ⟨hkind, htext, hlaid.text_eq hsource hsize,
      hlaid.symm.text_eq hsource' hsize', trivial, hplain t mem_cons_self⟩
    cases ts with
    | nil =>
      cases hts
      obtain ⟨rfl, rfl⟩ | ⟨⟨o, ho, hopening⟩, hus⟩ := hrest
      · exact .cons htoken (fun u u' hu => by cases hu) .nil
      · cases ho
        exact .opening htoken hopening hus
    | cons u ts =>
      obtain _ | ⟨u', ts'⟩ := ts'
      · cases hts
      refine .cons htoken (fun v v' hv hv' hminus => ?_) (ih (fun t ht => hplain t (mem_cons_of_mem _ ht)) hrest ?_ ?_)
      · -- what is joined with a sign reads the same on both sides
        cases hv
        cases hv'
        have hkind : Parser.numberKind u = Parser.numberKind u' := by
          obtain ⟨-, -, -, -, -, -, htexts, -, -⟩ := hlaid.neighbours
          rw [Parser.numberKind, Parser.numberKind, htexts]
        rw [hkind]
        refine .paired trivial (.node (fun _ => hlaid.text_join hsource hsource' hsize hsize') (fun hname => ?_) .nil)
        exact absurd hname (Parser.numberKind_ne_identifier u')
      · rw [← hsource]
        simp
      · rw [← hsource']
        simp

theorem Token.Laid.beside_end {source source' before before' cs : List Char} {ts ts' : List Token}
    {stop stop' : Parser.Finish} (hsize : byteLength source < 2 ^ 32) (hsize' : byteLength source' < 2 ^ 32)
    (h : Laid before before' cs ts ts') (hplain : ∀ t ∈ ts, t.kind = .identifier → IsPlain t.text)
    (hsource : before ++ cs = source) (hsource' : before' ++ cs = source') :
    (Parser.matching source source' stop stop').Beside false ts ts' := by
  rw [← append_nil cs] at hsource hsource'
  rw [← append_nil ts, ← append_nil ts']
  exact h.beside hsize hsize' hplain (.inl ⟨rfl, rfl⟩) hsource hsource'

/-! ## Sources -/

/-- The parenthesis `c` behind the text is a token, not part of a string or of a comment. -/
def StandsBehind (c : Char) (text : List Char) : Prop :=
  (Token.scan (text ++ [c])).getLast?.any (·.isSymbol (.ofList [c])) = true

instance (c : Char) (text : List Char) : Decidable (StandsBehind c text) := inferInstanceAs (Decidable (_ = _))

def enclose (before e after : List Char) : List Char := before ++ '(' :: (e ++ ')' :: after)

section
variable {p e e' q : List Char}

theorem Token.scanFrom_filter (k : Nat) (cs : List Char) : (scanFrom k cs).filter (·.kind ≠ .comment) =
    ((scan cs).filter (·.kind ≠ .comment)).map (shift k) := by
  have hshift := scanFrom_shift k 0 cs
  rw [Nat.zero_add] at hshift
  rw [hshift, filter_map]
  rfl

theorem Token.scan_enclose (hopen : StandsBehind '(' p) (hclose : StandsBehind ')' e) (q : List Char) :
    scan (enclose p e q) = scan (p ++ ['(']) ++ (scanFrom (byteLength p + 1) e ++ scanFrom
      (byteLength p + 1 + byteLength e) (')' :: q)) := by
  have hopening : isParenthesis '(' = true := rfl
  have hclosing : isParenthesis ')' = true := rfl
  have hclose : (scanFrom (0 + (byteLength p + 1)) (e ++ [')'])).getLast?.any (·.isSymbol ")") = true := by
    rw [scanFrom_shift, getLast?_map, Option.any_map]
    exact hclose
  rw [Nat.zero_add] at hclose
  have hcut := scanFrom_append hopening 0 p hopen
  unfold scan enclose
  rw [hcut, hcut, scanFrom_parenthesis hopening, scanFrom_parenthesis hopening, scanFrom, Nat.zero_add,
    scanFrom_append hclosing _ e hclose, append_assoc]
  rfl

theorem Token.getLast?_scan (hopen : StandsBehind '(' p) :
    ∃ o : Token, ((scan (p ++ ['('])).filter (·.kind ≠ .comment)).getLast? = some o ∧ o.IsPunct "(" := by
  have hopening : isParenthesis '(' = true := rfl
  refine ⟨⟨.punct, .ofOffsets (0 + byteLength p) (0 + byteLength p + 1), "("⟩, ?_, rfl, rfl⟩
  unfold scan
  rw [scanFrom_append hopening 0 p hopen, scanFrom_parenthesis hopening, scanFrom, filter_append]
  simp

variable (hopen : StandsBehind '(' p) (hclose : StandsBehind ')' e) (hclose' : StandsBehind ')' e')
  (hsize : byteLength (enclose p e q) < 2 ^ 32) (hsize' : byteLength (enclose p e' q) < 2 ^ 32)
  {r : Int64} (hvalue : Amounts .sum ((Token.scan e).filter (·.kind ≠ .comment)) r)
  (hvalue' : Amounts .sum ((Token.scan e').filter (·.kind ≠ .comment)) r)

include hopen hclose hsize

theorem Token.stand_enclose : Stand (enclose p e q) ((scanFrom (byteLength p + 1) e).filter (·.kind ≠ .comment)) := by
  have hstand := stand_scan hsize
  rw [scan_enclose hopen hclose, filter_append, filter_append] at hstand
  exact (stand_append (stand_append hstand).2).1

include hclose' hsize' hvalue hvalue'

theorem Parser.beside_enclose (stop stop' : Parser.Finish) :
    (Parser.matching (enclose p e q) (enclose p e' q) stop stop').Beside false
      ((Token.scan (enclose p e q)).filter (·.kind ≠ .comment))
      ((Token.scan (enclose p e' q)).filter (·.kind ≠ .comment)) := by
  have hplain : ∀ {start : Nat} {cs : List Char}, ∀ t ∈ (Token.scanFrom start cs).filter (·.kind ≠ .comment),
      t.kind = .identifier → IsPlain t.text := fun t ht => Token.isPlain_of_mem_scanFrom (mem_of_mem_filter ht)
  have hclosing : ∀ start, (Token.scanFrom start (')' :: q)).filter (·.kind ≠ .comment) =
      ⟨.punct, .ofOffsets start (start + 1), ")"⟩ :: (Token.scanFrom (start + 1) q).filter
        (·.kind ≠ .comment) := by
    intro start
    rw [Token.scanFrom_parenthesis rfl, filter_cons_of_pos (by rfl)]
  have hlength : ∀ e, byteLength (p ++ '(' :: e) = byteLength p + 1 + byteLength e := by
    intro e
    rw [byteLength_append, Nat.add_assoc]
    rfl
  have hbehind : (matching (enclose p e q) (enclose p e' q) stop stop').Beside false _ _ :=
    (Token.laid_scanFrom _ (')' :: q) _ _ _ (hlength e) (hlength e')).beside_end hsize hsize' hplain (by simp [enclose])
      (by simp [enclose])
  have hshifted := hvalue.shift (byteLength p + 1)
  have hshifted' := hvalue'.shift (byteLength p + 1)
  rw [← Token.scanFrom_filter] at hshifted hshifted'
  rw [hclosing, hclosing] at hbehind
  rw [Token.scan_enclose hopen hclose, Token.scan_enclose hopen hclose', filter_append, filter_append, filter_append,
    filter_append, hclosing, hclosing]
  -- up to the opening parenthesis the tokens are the same, then comes the value, then the same tokens elsewhere
  exact (Token.laid_scanFrom 0 (p ++ ['(']) 0 [] [] rfl rfl).beside hsize hsize' hplain
    (.inr ⟨Token.getLast?_scan hopen, .numbers (.mk hshifted hshifted' (Token.stand_enclose hopen hclose hsize)
      (Token.stand_enclose hopen hclose' hsize') ⟨rfl, rfl⟩ ⟨rfl, rfl⟩) hbehind⟩)
    (show [] ++ (p ++ ['('] ++ (e ++ ')' :: q)) = _ by simp [enclose])
    (show [] ++ (p ++ ['('] ++ (e' ++ ')' :: q)) = _ by simp [enclose])

/-- With arithmetic of the same value in its parentheses, a source gives the same lines, or errors of one kind. -/
theorem compile_enclose (options : Options) :
    (compile options (enclose p e q)).Agree (fun x y => x.kind = y.kind) (fun a b => a.lines = b.lines)
      (compile options (enclose p e' q)) := by
  have hbeside := Parser.beside_enclose hopen hclose hclose' hsize hsize' hvalue hvalue'
  unfold compile
  obtain ⟨t, t', ht, ht', hmatches⟩ | ⟨x, x', hx, hx', hkind, -⟩ :=
    Tree.parse_pairs (Parser.matching _ _ _ _) (hbeside _ _)
  · rw [ht, ht']
    have hparsed : (Outcome.silent (.ok t)).Agree (fun x y => x.kind = y.kind) (Tree.Matches (fun _ _ => True) _ _)
      (Outcome.silent (.ok t')) := .ok rfl rfl hmatches
    refine hparsed.andThen fun t t' h => ?_
    exact (compileTree_matches options h).imp (fun _ _ he => he.kind_eq) fun _ _ hlines => hlines.1
  · rw [hx, hx']
    exact .error rfl rfl hkind

end

theorem standsBehind_renderInt (r : Int64) : StandsBehind ')' (renderInt r).toList := by
  refine Token.getLast?_scanFrom rfl 0 _ fun d hd => ?_
  have hpart := isIntegerPart_of_mem_int hd
  constructor
  · rintro rfl
    cases hpart
  · rintro rfl
    cases hpart

/-- Arithmetic on whole numbers compiles like its value. -/
theorem compile_arithmetic (options : Options) {p e q : List Char} {r : Int64} (hopen : StandsBehind '(' p)
    (hclose : StandsBehind ')' e) (hvalue : Amounts .sum ((Token.scan e).filter (·.kind ≠ .comment)) r)
    (hsize : byteLength (enclose p e q) < 2 ^ 32) (hsize' : byteLength (enclose p (renderInt r).toList q) < 2 ^ 32) :
    (compile options (enclose p e q)).Agree (fun x y => x.kind = y.kind) (fun a b => a.lines = b.lines)
      (compile options (enclose p (renderInt r).toList q)) :=
  compile_enclose hopen hclose (standsBehind_renderInt r) hsize hsize' hvalue
    (.inner (.inner (.inner (.literal r)))) options

def twiceSeven : List Char := "2 * (3 - -4) // twice seven\n".toList

theorem arithmetic_twiceSeven : Amounts .sum ((Token.scan twiceSeven).filter (·.kind ≠ .comment)) 14 := by
  have htokens : (Token.scan twiceSeven).filter (·.kind ≠ .comment) =
      [⟨.number, .ofOffsets 0 1, "2"⟩] ++ ⟨.punct, .ofOffsets 2 3, "*"⟩ :: (⟨.punct, .ofOffsets 4 5, "("⟩ ::
        (([⟨.number, .ofOffsets 5 6, "3"⟩] ++ ⟨.punct, .ofOffsets 7 8, "-"⟩ ::
          [⟨.punct, .ofOffsets 9 10, "-"⟩, ⟨.number, .ofOffsets 10 11, "4"⟩]) ++ [⟨.punct,
            .ofOffsets 11 12, ")"⟩])) := by
    decide +kernel
  have two : Amounts .operand [⟨.number, .ofOffsets 0 1, "2"⟩] 2 := .number rfl rfl rfl
  have three : Amounts .operand [⟨.number, .ofOffsets 5 6, "3"⟩] 3 := .number rfl rfl rfl
  have four : Amounts .operand [⟨.punct, .ofOffsets 9 10, "-"⟩, ⟨.number, .ofOffsets 10 11, "4"⟩] (-4) :=
    .negative ⟨rfl, rfl⟩ rfl rfl rfl rfl
  rw [htokens]
  have seven : Amounts .sum ([⟨.number, .ofOffsets 5 6, "3"⟩] ++ ⟨.punct, .ofOffsets 7 8, "-"⟩ ::
      [⟨.punct, .ofOffsets 9 10, "-"⟩, ⟨.number, .ofOffsets 10 11, "4"⟩]) 7 :=
    .operation (.inner (.inner (.inner three))) (by decide) ⟨rfl, rfl⟩ (.inner (.inner four)) rfl
  exact .inner (.operation (.inner (.inner two)) (by decide) ⟨rfl, rfl⟩
    (.inner (.parenthesized ⟨rfl, rfl⟩ ⟨rfl, rfl⟩ seven)) rfl)

theorem compile_arithmetic_of_twiceSeven :
    (StandsBehind '(' "let a = [1, ".toList ∧ StandsBehind ')' twiceSeven ∧
      Amounts .sum ((Token.scan twiceSeven).filter (·.kind ≠ .comment)) 14) ∧
    (compile {} (enclose "let a = [1, ".toList twiceSeven "] print(\"x\" + a[1])".toList)).Agree
      (fun x y => x.kind = y.kind) (fun a b => a.lines = b.lines)
      (compile {} (enclose "let a = [1, ".toList "14".toList "] print(\"x\" + a[1])".toList)) ∧
    (compile {} (enclose "let a = [1, ".toList twiceSeven
      "] print(\"x\" + a[1])".toList)).result.toOption.isSome = true := by
  have hopen : StandsBehind '(' "let a = [1, ".toList := by decide +kernel
  have hclose : StandsBehind ')' twiceSeven := by decide +kernel
  have hcompile := compile_arithmetic (q := "] print(\"x\" + a[1])".toList) {} hopen hclose arithmetic_twiceSeven
    (by decide +kernel) (by decide +kernel)
  exact ⟨⟨hopen, hclose, arithmetic_twiceSeven⟩, hcompile, by decide +kernel⟩

end Bies
