import Bies.Proofs.Lookahead
import Bies.Proofs.Progress
import Bies.Proofs.Relayout

/-!
# The text of a node

The text under the span of a compound expression, parsed on its own, is the same expression, if its parentheses are
balanced. They are not if parentheses stood around the first operand or the last one, as these are left out of the
span while what they close or open is not; then the text is no program at all.
-/

namespace Bies

open List Token Bies.Parser

/-! ## Expressions by themselves -/

section
variable {p : Phrase} {us rest : List Token} {ts : List Tree}

theorem lacks_nil {texts : List String} : Lacks texts [] := fun _ _ => rfl

theorem Derives.expression_of_operand (h : Derives p us ts []) (hp : p.isOperand = true) (hnamed : Named us) :
    Derives .expression us ts [] := by
  refine .ofComparison ?_ (h.startsLambda_eq_false hp hnamed rfl)
  have hpower : Derives .power us ts [] → Derives .comparison us ts [] :=
    fun h => .ofSum (.ofProduct (.ofPower h) lacks_nil) lacks_nil
  have hprimary : Derives .primary us ts [] → Derives .comparison us ts [] :=
    fun h => hpower (.ofUnary (.ofPrimary h (h.leads hnamed [] "-" (by decide))) rfl)
  cases p with
  | comparison => exact h
  | sum => exact .ofSum h lacks_nil
  | product => exact .ofSum (.ofProduct h lacks_nil) lacks_nil
  | power => exact hpower h
  | unary => exact hpower (.ofUnary h rfl)
  | primary => exact hprimary h
  | name => exact hprimary (.ofName h lacks_nil)
  | _ => cases hp

/-- What is read as an expression somewhere is read so when nothing follows. -/
theorem Derives.expression_alone (h : Derives p us ts rest) (hp : p.isOperand = true ∨ p = .lambda)
    (hnamed : Named us) : Derives .expression us ts [] := by
  rcases hp with hp | rfl
  · exact (h.ahead hnamed (.inr ⟨rfl, by cases p <;> first | rfl | cases hp⟩)).expression_of_operand hp hnamed
  · exact .ofLambda (h.ahead hnamed (.inr ⟨rfl, rfl⟩)) (h.startsLambda_of_lambda hnamed [])

theorem Derives.program_alone {u : Tree} (h : Derives .expression us [u] []) (hnamed : Named us) :
    Derives (.sequence .statement false) us [.covering .expressionStatement [u]] [] := by
  have hstatement : Derives .statement us [.covering .expressionStatement [u]] [] :=
    .ofExpression h ((h.leads hnamed []).sub (by decide))
  have hopen : closes false (us ++ [] ++ []) = false := by
    rw [append_assoc]
    exact hstatement.closes_eq_false hnamed rfl (by decide) _
  rw [← append_nil us]
  exact .sequence hstatement (.noSequence rfl) hopen rfl

end

/-! ## Tokens of nodes -/

def Tree.Kind.isCompound : Tree.Kind → Bool
  | .arithmetic | .comparison | .call | .listAccess | .listLiteral | .lambda => true
  | _ => false

/-- The tokens under the span of the node. If their parentheses are balanced, they are read as the node. -/
structure Quotes (us : List Token) (u : Tree) (quoted : List Token) : Prop where
  among : quoted <:+: us
  ends : u.span.Ends quoted
  alone : balanced quoted = true → Derives .expression quoted [u] []
  closed : u.kind ∈ [.call, .listAccess, .listLiteral] → balanced quoted = true

/-- Every compound expression in the trees has tokens among these. -/
def Quoted (us : List Token) (ts : List Tree) : Prop :=
  Row us → Named us → ∀ u ∈ Tree.subtreesAll ts, u.kind.isCompound = true → ∃ quoted, Quotes us u quoted

namespace Quoted

variable {u : Token} {us vs : List Token} {ts xs : List Tree} {kind : Tree.Kind} {span : Span}

theorem nil : Quoted us [] := fun _ _ => nofun

theorem mono (h : Quoted us ts) (hus : us <:+: vs) : Quoted vs ts := by
  intro hrow hnamed t ht hkind
  obtain ⟨quoted, hquotes⟩ := h (hrow.sublist hus.sublist) (hnamed.subset hus.subset) t ht hkind
  exact ⟨quoted, { hquotes with among := hquotes.among.trans hus }⟩

theorem append (h : Quoted us ts) (h' : Quoted vs xs) : Quoted (us ++ vs) (ts ++ xs) := by
  intro hrow hnamed t ht
  rw [Tree.mem_subtreesAll] at ht
  obtain ⟨x, hx, ht⟩ := ht
  rcases mem_append.mp hx with hx | hx
  · exact h.mono ⟨[], vs, rfl⟩ hrow hnamed t (Tree.mem_subtreesAll.mpr ⟨x, hx, ht⟩)
  · exact h'.mono ⟨us, [], by simp⟩ hrow hnamed t (Tree.mem_subtreesAll.mpr ⟨x, hx, ht⟩)

theorem skip (h : Quoted us ts) : Quoted (u :: us) ts := h.mono ⟨[u], [], by simp⟩

theorem close (h : Quoted us ts) : Quoted (us ++ [u]) ts := h.mono ⟨[], [u], rfl⟩

theorem node (h : Quoted us ts)
    (hnode : kind.isCompound = true → Row us → Named us → ∃ quoted, Quotes us (.node kind span ts) quoted) :
    Quoted us [.node kind span ts] := by
  intro hrow hnamed t ht hkind
  rw [Tree.subtreesAll, Tree.subtreesAll, append_nil] at ht
  rcases mem_cons.mp ht with rfl | ht
  · exact hnode hkind hrow hnamed
  · exact h hrow hnamed t ht hkind

end Quoted

namespace Derives

section
variable {p q r : Phrase} {us vs ws rest rest' : List Token} {u left op right : Tree} {texts : List String}
  {kind : Tree.Kind}

theorem quotes_whole (h : Derives .primary us [u] rest) (hnamed : Named us) (hends : u.span.Ends us) :
    ∃ quoted, Quotes us u quoted := by
  refine ⟨us, infix_rfl, hends, fun _ => h.expression_alone (.inl rfl) hnamed, fun _ => ?_⟩
  rw [balanced, h.neutral rfl hnamed]
  rfl

theorem quotes_across (h : Derives r (us ++ (vs ++ ws)) [u] rest) (hr : r.isOperand = true ∨ r = .lambda)
    (hkind : u.kind ∉ [.call, .listAccess, .listLiteral]) (hleft : Derives p us [left] (vs ++ ws ++ rest))
    (hright : Derives q ws [right] rest) (hp : p.isValue = true) (hq : q.isValue = true) (hvs : Neutral vs)
    (hspan : Row (us ++ (vs ++ ws)) → u.span = ⟨left.span.start, right.span.stop⟩)
    (hrow : Row (us ++ (vs ++ ws))) (hnamed : Named (us ++ (vs ++ ws))) :
    ∃ quoted, Quotes (us ++ (vs ++ ws)) u quoted := by
  obtain ⟨quoted, hamong, hends, hwhole⟩ := hleft.exists_ends hright hp hq hvs hrow hnamed (hspan hrow)
  refine ⟨quoted, hamong, hends, fun hbalanced => ?_, fun h => absurd h hkind⟩
  rw [hwhole hbalanced]
  exact h.expression_alone hr hnamed

theorem quotes_operation (h : Derives r (us ++ (vs ++ ws)) [.covering kind [left, op, right]] rest)
    (hr : r.isOperand = true) (hkind : kind ∉ [.call, .listAccess, .listLiteral])
    (hleft : Derives p us [left] (vs ++ ws ++ rest)) (hop : Derives (.operator texts) vs [op] (ws ++ rest))
    (hright : Derives q ws [right] rest) (hp : p.isValue = true) (hq : q.isValue = true)
    (htexts : (Phrase.operator texts).isBare = true) (hrow : Row (us ++ (vs ++ ws)))
    (hnamed : Named (us ++ (vs ++ ws))) :
    ∃ quoted, Quotes (us ++ (vs ++ ws)) (.covering kind [left, op, right]) quoted := by
  have hspread : Spreads (us ++ (vs ++ ws)) ([left, op, right].map Tree.span) [left, op, right] :=
    hleft.spreads.append (hop.spreads.append hright.spreads)
  exact h.quotes_across (.inl hr) hkind hleft hright hp hq (hop.neutral htexts)
    (fun hrow => (hspread.covering_span hrow).1) hrow hnamed

theorem quotes_lambda {a : Token} {params body : Tree}
    (h : Derives .lambda (us ++ a :: vs) [.node .lambda (params.span.join body.span) [params, body]] rest)
    (hparams : Derives .parameters us [params] (a :: (vs ++ rest))) (ha : a.isSymbol "=>" = true)
    (hbody : Derives q vs [body] rest) (hq : q.isValue = true) (hrow : Row (us ++ a :: vs))
    (hnamed : Named (us ++ a :: vs)) :
    ∃ quoted, Quotes (us ++ a :: vs) (.node .lambda (params.span.join body.span) [params, body]) quoted := by
  rw [← singleton_append] at *
  exact h.quotes_across (.inr rfl) (by simp [Tree.kind]) hparams hbody rfl hq (.symbol ha)
    ((hparams.spreads.append hbody.spreads.skip).join_eq []) hrow hnamed

theorem quotes_call {name args : Tree} (hname : Derives .name us [name] (vs ++ rest))
    (hargs : Derives .arguments vs [args] rest) (hrow : Row (us ++ vs)) (hnamed : Named (us ++ vs)) :
    ∃ quoted, Quotes (us ++ vs) (.covering .call [name, args]) quoted := by
  have hspread : Spreads (us ++ vs) ([name, args].map Tree.span) [name, args] := hname.spreads.append hargs.spreads
  refine (Derives.call hname hargs).quotes_whole hnamed ?_
  rw [(hspread.covering_span hrow).1]
  cases hname with
  | @name t _ hident =>
    cases hargs with
    | @arguments o c xs _ _ _ hitems =>
      refine @Span.ends_bracket _ t c (o :: xs) ?_
      show (⟨t.span.start, (o.span.join c.span).stop⟩ : Span) = _
      rw [hitems.spreads.close.token.join_eq _ hrow.right]

end

theorem quoted {p : Phrase} {us rest : List Token} {ts : List Tree} (h : Derives p us ts rest) : Quoted us ts := by
  induction h with
  | name | operator | string => exact Quoted.nil.node nofun
  | number t | negative =>
    refine Quoted.nil.node fun h => ?_
    unfold numberKind at h
    split at h <;> cases h
  | noList | noMore | noSequence => exact .nil
  | list _ _ _ iht ihts | sequence _ _ _ _ iht ihts => exact iht.append ihts
  | more _ _ _ iht ihts => exact (iht.append ihts).skip
  | semicolon _ _ _ _ iht ihts => exact iht.append ihts.skip
  | parameters _ _ _ ih | arguments _ _ _ ih | block _ _ _ ih => exact ih.close.skip.node nofun
  | letDeclaration _ _ _ _ ihname ihvalue | constDeclaration _ _ _ _ ihname ihvalue =>
    exact (ihname.append ihvalue.skip).skip.node nofun
  | letIn _ _ _ _ _ _ ihds ihbody => exact (ihds.append ihbody.skip.skip).skip.skip.node nofun
  | function _ _ _ _ ihname ihparams ihbody => exact (ihname.append (ihparams.append ihbody)).skip.node nofun
  | ret _ _ ih | print _ _ ih => exact ih.skip.node nofun
  | ofExpression _ _ ih => exact ih.node nofun
  | ifThen hkind _ _ _ _ _ _ ihtest ihbody =>
    exact (ihtest.append ihbody.skip).skip.skip.node (by rcases hkind with rfl | rfl <;> nofun)
  | ifElse hkind _ _ _ _ _ _ _ ihtest ihbody ihother =>
    exact (ihtest.append (ihbody.append (ihother.skip.node (fun h => by cases h))).skip).skip.skip.node
      (by rcases hkind with rfl | rfl <;> nofun)
  | ifElseIf hkind _ _ _ _ _ _ _ ihtest ihbody ihlink =>
    exact (ihtest.append (ihbody.append ihlink.skip).skip).skip.skip.node (by rcases hkind with rfl | rfl <;> nofun)
  | lambdaBlock hparams ha hbody ihparams ihbody =>
    exact (ihparams.append ihbody.skip).node fun _ =>
      (Derives.lambdaBlock hparams ha hbody).quotes_lambda hparams ha hbody rfl
  | lambdaValue hparams ha hvalue hopen ihparams ihvalue =>
    exact (ihparams.append ihvalue.skip).node fun _ =>
      (Derives.lambdaValue hparams ha hvalue hopen).quotes_lambda hparams ha hvalue rfl
  | comparison hleft hop hright hend ihleft ihop ihright =>
    exact (ihleft.append (ihop.append ihright)).node fun _ =>
      (Derives.comparison hleft hop hright hend).quotes_operation rfl (by decide) hleft hop hright rfl rfl (by decide)
  | sum hleft hop hright hend ihleft ihop ihright =>
    exact (ihleft.append (ihop.append ihright)).node fun _ =>
      (Derives.sum hleft hop hright hend).quotes_operation rfl (by decide) hleft hop hright rfl rfl (by decide)
  | product hleft hop hright ihleft ihop ihright =>
    exact (ihleft.append (ihop.append ihright)).node fun _ =>
      (Derives.product hleft hop hright).quotes_operation rfl (by decide) hleft hop hright rfl rfl (by decide)
  | power hleft hop hright ihleft ihop ihright =>
    exact (ihleft.append (ihop.append ihright)).node fun _ =>
      (Derives.power hleft hop hright).quotes_operation rfl (by decide) hleft hop hright rfl rfl (by decide)
  | call hname hargs ihname ihargs => exact (ihname.append ihargs).node fun _ => hname.quotes_call hargs
  | @access o c us vs _ _ _ hname ho hindex hc ihname ihindex =>
    refine (ihname.append ihindex.close.skip).node fun _ hrow hnamed => ?_
    refine (Derives.access hname ho hindex hc).quotes_whole hnamed ?_
    have hspan := (hname.spreads.append hindex.spreads.close.skip).join_eq _ hrow
    cases hname with
    | @name t => exact @Span.ends_bracket _ t c (o :: vs) hspan
  | listLiteral ho hts hc hkind ih =>
    refine ih.close.skip.node fun _ hrow hnamed => ?_
    refine (Derives.listLiteral ho hts hc hkind).quotes_whole hnamed ?_
    exact Span.ends_bracket (hts.spreads.close.token.join_eq _ hrow)
  | parenthesized _ _ _ _ ih => exact ih.close.skip
  | ofDeclaration _ _ ih | ofLetIn _ ih | ofConditional _ ih | ofBlock _ ih | ofLambda _ _ ih | ofComparison _ _ ih
  | ofSum _ _ ih | ofProduct _ _ ih | ofPower _ ih | ofUnary _ _ ih | ofPrimary _ _ ih | ofName _ _ ih => exact ih

end Derives

/-! ## The same tokens elsewhere -/

theorem Tree.outlines_eq {source source' : List Char} {ts ts' : List Tree}
    (h : Forall₂ (fun t t' => Tree.outline source t = Tree.outline source' t') ts ts') :
    Tree.outlines source ts = Tree.outlines source' ts' := by
  induction h with
  | nil => rfl
  | cons ht _ ih => rw [outlines, outlines, ht, ih]

/-- Tokens of one kind and text, which read as the same text. -/
def Parser.copying (source source' : List Char) (stop stop' : Finish) : Simulation stop stop' where
  tokens t t' := t.kind = t'.kind ∧ t.text = t'.text ∧ t.span.text source = t'.span.text source'
  trees t t' := t.outline source = t'.outline source'
  spans _ _ := True
  numbers _ _ _ _ := False
  kind_eq h := h.1
  text_eq h := h.2.1
  span _ := trivial
  ends := trivial
  join _ _ := trivial
  leaf h _ := by
    simp only [Tree.leaf, Tree.outline, h.2.2]
    rfl
  node hkind hts := by
    rw [Tree.outline, Tree.outline, hkind, Tree.outlines_eq hts]
    rfl
  begins := @Simulation.not_begins
  first h := h.elim
  shorter := @Simulation.not_shorter
  expression h := h.elim

section
variable {source source' before before' cs after after' : List Char} {ts ts' : List Token} {stop stop' : Finish}

theorem Token.Laid.copies (h : Laid before before' cs ts ts') (hsize : byteLength source < 2 ^ 32)
    (hsize' : byteLength source' < 2 ^ 32) (hsource : before ++ (cs ++ after) = source)
    (hsource' : before' ++ (cs ++ after') = source') : (copying source source' stop stop').Beside false ts ts' := by
  induction h with
  | nil => exact .nil
  | @cons before before' gap rest t t' ts ts' hgap hkind htext ht ht' hsome hts ih =>
    have hlaid : Laid before before' (gap ++ (t.text.toList ++ rest)) (t :: ts) (t' :: ts') :=
      .cons hgap hkind htext ht ht' hsome hts
    have hread : t.span.text source = t'.span.text source' := by
      rw [hlaid.text_eq hsource hsize, hlaid.symm.text_eq hsource' hsize', htext]
    refine .cons ⟨hkind, htext, hread⟩ (fun u u' hu hu' _ => ?_)
      (ih (by rw [← hsource]; simp) (by rw [← hsource']; simp))
    -- what is joined with a sign reads the same on both sides
    obtain ⟨us, rfl⟩ := head?_eq_some_iff.mp hu
    obtain ⟨us', rfl⟩ := head?_eq_some_iff.mp hu'
    have hkind : numberKind u = numberKind u' := by
      obtain ⟨-, -, -, -, -, -, htexts, -, -⟩ := hlaid.neighbours
      rw [numberKind, numberKind, htexts]
    show Tree.outline source (.leaf _ _) = Tree.outline source' (.leaf _ _)
    rw [hkind, Tree.leaf, Tree.leaf, Tree.outline, Tree.outline, hlaid.text_join hsource hsource' hsize hsize']
    rfl

theorem Token.Laid.depth?_eq (h : Laid before before' cs ts ts') (depth : Nat) : depth? depth ts = depth? depth ts' := by
  induction h generalizing depth with
  | nil => rfl
  | @cons _ _ _ _ t t' _ _ _ hkind htext _ _ _ _ ih =>
    have hsymbol : t.isSymbol = t'.isSymbol := by
      funext text
      rw [isSymbol, isSymbol, hkind, htext]
    simp only [depth?, hsymbol, ih]

theorem Token.depth?_filter (ts : List Token) (depth : Nat) :
    depth? depth (ts.filter (·.kind ≠ .comment)) = depth? depth ts := by
  induction ts generalizing depth with
  | nil => rfl
  | cons t ts ih =>
    by_cases hkind : t.kind = .comment
    · rw [filter_cons_of_neg (by simpa using hkind), ih, depth?]
      simp [isSymbol, hkind]
    · rw [filter_cons_of_pos (by simpa using hkind)]
      simp only [depth?, ih]

end

/-! ## Nodes -/

namespace Tree

/-- Parsed on its own, the text of the node is one expression, with the same kinds, shape and texts as the node. -/
def StandsAlone (source : List Char) (u : Tree) : Prop :=
  ∃ span span' t, Tree.parse (u.text source).toList = .ok (.node .program span [.node .expressionStatement span' [t]]) ∧
    t.outline (u.text source).toList = u.outline source

section
variable {source : List Char} {tree u : Tree}

theorem exists_of_outline {source' : List Char} {t : Tree}
    (h : (Tree.covering .expressionStatement [u]).outline source = t.outline source') :
    ∃ span v, t = .node .expressionStatement span [v] ∧ v.outline source' = u.outline source := by
  obtain ⟨kind, span, children⟩ := t
  rw [covering, outline, outline] at h
  injection h with hkind htext hchildren
  subst hkind
  rcases children with _ | ⟨v, _ | _⟩
  · cases hchildren
  · injection hchildren with hv
    exact ⟨span, v, rfl, hv.symm⟩
  · injection hchildren with _ hnone
    cases hnone

/-- Where the text of a node stands in the source, and its tokens. -/
theorem exists_text (hsize : byteLength source < 2 ^ 32) {us : List Token}
    (hus : us <:+: (scan source).filter (·.kind ≠ .comment)) (hends : u.span.Ends us) :
    ∃ before after, before ++ ((u.text source).toList ++ after) = source ∧
      (scanFrom (byteLength before) (u.text source).toList).filter (·.kind ≠ .comment) = us := by
  have hne : us ≠ [] := by
    rintro rfl
    cases hends.1
  obtain ⟨before, text, after, hsource, htokens, hstart, hstop⟩ := exists_excerpt hne hus
  rw [hends.1, Option.some.injEq] at hstart
  rw [hends.2, Option.some.injEq] at hstop
  have hspan : u.span = .ofOffsets (byteLength before) (byteLength before + byteLength text) := by
    rw [Span.ofOffsets, ← hstart, ← hstop]
  have htext : (u.text source).toList = text := by
    rw [Tree.text, hspan, Span.text_middle hsource hsize, String.toList_ofList]
  rw [htext]
  exact ⟨before, after, hsource, htokens⟩

/-- Tokens that are read as an expression are the whole program when they stand alone. -/
theorem standsAlone {before after : List Char} {us : List Token} (hsize : byteLength source < 2 ^ 32)
    (hsource : before ++ ((u.text source).toList ++ after) = source)
    (hus : (scanFrom (byteLength before) (u.text source).toList).filter (·.kind ≠ .comment) = us) (hnamed : Named us)
    (h : Derives .expression us [u] []) : u.StandsAlone source := by
  unfold StandsAlone
  generalize (u.text source).toList = text at *
  have hpart : byteLength text < 2 ^ 32 := by
    rw [← hsource, byteLength_append, byteLength_append] at hsize
    omega
  have hlaid := laid_scanFrom (byteLength before) text 0 before [] rfl rfl
  rw [hus] at hlaid
  have hcopies : (copying source text (.ofSource text) (.ofSource text)).Beside false _ _ :=
    hlaid.copies hsize hpart hsource (append_nil text)
  generalize htokens : (scanFrom 0 text).filter (·.kind ≠ .comment) = tokens at hcopies
  -- both lists of tokens are parsed with large budgets
  have hgoes : (program (.ofSource text) (10 * us.length + 9)).Goes us [.covering .expressionStatement [u]] [] := by
    have hsettles := (h.program_alone hnamed).obtains (.ofSource text)
    rw [append_nil] at hsettles
    exact steady_program.goes hsettles (Nat.le_refl _)
  have hpairs := (copying source text (.ofSource text) (.ofSource text)).pairs_program _ (budget tokens) us.length
    tokens.length (Nat.le_refl _) (by unfold budget; omega) us tokens ⟨hcopies, Nat.le_refl _, Nat.le_refl _⟩
  unfold Simulation.PairsFrom at hpairs
  rw [hgoes] at hpairs
  unfold Tree.parse
  dsimp only
  rw [scan, htokens]
  cases hrun : program (.ofSource text) (budget tokens) tokens with
  | error e =>
    rw [StateT.run, hrun] at hpairs
    exact hpairs.elim
  | ok p =>
    rw [StateT.run, hrun] at hpairs
    obtain ⟨t, ts, hstatement, hnil, hp⟩ := forall₂_cons_left_iff.mp hpairs.1
    obtain ⟨span, v, rfl, hv⟩ := exists_of_outline hstatement
    rw [forall₂_nil_left_iff.mp hnil] at hp
    refine ⟨.ofOffsets 0 (byteLength text), span, v, ?_, hv⟩
    show Except.ok (Tree.node .program (.ofOffsets 0 (byteLength text)) p.1) = _
    rw [hp]

theorem balanced_of_parse {text : List Char} (h : Tree.parse text = .ok tree) : balanced (scan text) = true := by
  obtain ⟨ts, -, hderives⟩ := derives_of_parse h
  rw [balanced, ← depth?_filter, hderives.neutral rfl (named_scan text)]
  rfl

/-- The text of a compound expression stands alone just if its parentheses are balanced, and is no program if they are
not. Those of a node that its own brackets close always are. A source of 2³² bytes or more is left out, as spans count
modulo 2³². -/
theorem standsAlone_iff (hsize : byteLength source < 2 ^ 32) (hparse : Tree.parse source = .ok tree)
    (hu : u ∈ tree.subtrees) (hkind : u.kind.isCompound = true) :
    (u.StandsAlone source ↔ balanced (scan (u.text source).toList) = true) ∧
    (balanced (scan (u.text source).toList) = false → ∃ e, Tree.parse (u.text source).toList = .error e) ∧
    (u.kind ∈ [.call, .listAccess, .listLiteral] → balanced (scan (u.text source).toList) = true) := by
  obtain ⟨ts, rfl, hderives⟩ := derives_of_parse hparse
  have hrow := row_scan hsize
  have hnamed := named_scan source
  have hmem : u ∈ subtreesAll ts := by
    rcases mem_cons.mp hu with rfl | hu
    · cases hkind
    · exact hu
  obtain ⟨us, hquotes⟩ := hderives.quoted hrow hnamed u hmem hkind
  obtain ⟨before, after, hsource, htokens⟩ := exists_text hsize hquotes.among hquotes.ends
  have hbalanced : balanced (scan (u.text source).toList) = balanced us := by
    have hlaid := laid_scanFrom (byteLength before) (u.text source).toList 0 before [] rfl rfl
    rw [htokens] at hlaid
    rw [balanced, balanced, hlaid.depth?_eq, depth?_filter]
    rfl
  refine ⟨⟨fun h => ?_, fun h => ?_⟩, fun h => ?_, fun h => ?_⟩
  · obtain ⟨_, _, _, hprogram, _⟩ := h
    exact balanced_of_parse hprogram
  · exact standsAlone hsize hsource htokens (hnamed.subset hquotes.among.subset) (hquotes.alone (hbalanced ▸ h))
  · cases hprogram : Tree.parse (u.text source).toList with
    | error e => exact ⟨e, rfl⟩
    | ok tree =>
      rw [balanced_of_parse hprogram] at h
      cases h
  · rw [hbalanced]
    exact hquotes.closed h

end

def groupedSource : List Char := "let a = (x, y) => f((x + y) * 2)".toList

/-- The call is quoted whole, the product in it is not. -/
theorem standsAlone_iff_of_groupedSource : ∃ tree call product, Tree.parse groupedSource = .ok tree ∧
    (call ∈ tree.subtrees ∧ call.text groupedSource = "f((x + y) * 2)" ∧ call.StandsAlone groupedSource) ∧
    product ∈ tree.subtrees ∧ product.text groupedSource = "x + y) * 2" ∧ ¬product.StandsAlone groupedSource ∧
    ∃ e, Tree.parse "x + y) * 2".toList = .error e := by
  obtain ⟨tree, hparse, hnodes⟩ := exists_of_parse groupedSource (p := fun tree =>
    (tree.subtrees.any fun u => u.kind = .call && u.text groupedSource = "f((x + y) * 2)") &&
      tree.subtrees.any fun u => u.kind = .arithmetic && u.text groupedSource = "x + y) * 2") (by decide +kernel)
  simp only [Bool.and_eq_true, List.any_eq_true, decide_eq_true_eq] at hnodes
  obtain ⟨⟨call, hcall, hkind, htext⟩, product, hproduct, hkind', htext'⟩ := hnodes
  have hwhole := standsAlone_iff (by decide +kernel) hparse hcall (by rw [hkind]; rfl)
  have hcut := standsAlone_iff (by decide +kernel) hparse hproduct (by rw [hkind']; rfl)
  have hunbalanced : balanced (scan "x + y) * 2".toList) = false := by decide +kernel
  rw [htext', hunbalanced] at hcut
  refine ⟨tree, call, product, hparse, ⟨hcall, htext, ?_⟩, hproduct, htext', fun h => ?_, hcut.2.1 rfl⟩
  · exact hwhole.1.2 (hwhole.2.2 (by simp [hkind]))
  · exact absurd (hcut.1.1 h) Bool.false_ne_true

def groupedProduct : List Char := "(1 + 2) * 3".toList

/-- The span of a product leaves out the parenthesis that opens before its first operand, but not the one that closes
behind it. -/
theorem not_standsAlone_of_groupedProduct : ∃ tree u, Tree.parse groupedProduct = .ok tree ∧ u ∈ tree.subtrees ∧
    u.kind = .arithmetic ∧ u.text groupedProduct = "1 + 2) * 3" ∧ ¬u.StandsAlone groupedProduct := by
  obtain ⟨tree, hparse, hnode⟩ := exists_of_parse groupedProduct (p := fun tree =>
    tree.subtrees.any fun u => u.kind = .arithmetic && u.text groupedProduct = "1 + 2) * 3") (by decide +kernel)
  simp only [Bool.and_eq_true, List.any_eq_true, decide_eq_true_eq] at hnode
  obtain ⟨u, hu, hkind, htext⟩ := hnode
  refine ⟨tree, u, hparse, hu, hkind, htext, ?_⟩
  rintro ⟨span, span', t, hprogram, -⟩
  rw [htext] at hprogram
  have hnone : (Tree.parse "1 + 2) * 3".toList).toOption.isNone = true := by decide +kernel
  rw [hprogram] at hnone
  cases hnone

end Tree
end Bies
