import Bies.Proofs.Lookahead
import Bies.Proofs.Progress
import Mathlib.Data.List.Forall2

/-!
# Parsing what was printed

The tokens of a printed outline derive a tree with that outline, so it is parsed to that tree. What follows the tokens
must not go on with the phrase.
-/

namespace Bies

open Bies.Outline Bies.Parser

/-! ## Tokens of words -/

namespace Outline

variable {source : List Char} {w v : String} {ws vs : List String} {us : List Token}

theorem Spells.split (h : Spells source (ws ++ vs) us) :
    ∃ xs ys, us = xs ++ ys ∧ Spells source ws xs ∧ Spells source vs ys := by
  induction ws generalizing us with
  | nil => exact ⟨[], us, rfl, .nil, h⟩
  | cons w ws ih =>
    cases h with
    | @token _ _ u _ hsigned hkind htext hnamed hspan h =>
      obtain ⟨xs, ys, rfl, hxs, hys⟩ := ih h
      exact ⟨u :: xs, ys, rfl, .token hsigned hkind htext hnamed hspan hxs, hys⟩
    | @signed _ _ m u _ hsigned hm hkind htext hspan h =>
      obtain ⟨xs, ys, rfl, hxs, hys⟩ := ih h
      exact ⟨m :: u :: xs, ys, rfl, .signed hsigned hm hkind htext hspan hxs, hys⟩

def isMark (w : String) : Bool :=
  !isSigned w.toList && (leadKind w.toList == .punct || leadKind w.toList == .identifier)

structure Marks (source : List Char) (w : String) (u : Token) : Prop where
  kind : u.kind = leadKind w.toList
  text : u.text = w
  span : u.span.text source = w
  isSymbol : u.isSymbol w = true

theorem Spells.mark (h : Spells source (w :: ws) us) (hw : isMark w = true) :
    ∃ u rest, us = u :: rest ∧ Marks source w u ∧ Spells source ws rest := by
  simp only [isMark, Bool.and_eq_true, Bool.not_eq_true', Bool.or_eq_true, beq_iff_eq] at hw
  cases h with
  | @token _ _ u rest _ hkind htext _ hspan h =>
    refine ⟨u, rest, rfl, ⟨hkind, htext, hspan, ?_⟩, h⟩
    rcases hw.2 with hw | hw <;> simp [Token.isSymbol, hkind, hw, htext]
  | signed hsigned =>
    rw [hw.1] at hsigned
    cases hsigned

theorem Spells.bracket (h : Spells source (w :: (ws ++ [v])) us) (hw : isMark w = true)
    (hv : isMark v = true) :
    ∃ o xs c, us = o :: (xs ++ [c]) ∧ Marks source w o ∧ Spells source ws xs ∧ Marks source v c := by
  obtain ⟨o, us, rfl, ho, h⟩ := h.mark hw
  obtain ⟨xs, _, rfl, hxs, h⟩ := h.split
  obtain ⟨c, _, rfl, hc, ⟨⟩⟩ := h.mark hv
  exact ⟨o, xs, c, rfl, ho, hxs, hc⟩

end Outline

/-- The next token has none of the texts. -/
def Stops (texts : List String) (s : List Token) : Prop := ∀ w ∈ texts, s.head?.any (·.text = w) = false

theorem Stops.sub {texts others : List String} {s : List Token} (h : Stops texts s) (hsub : others ⊆ texts) :
    Stops others s := fun w hw => h w (hsub hw)

theorem Stops.isSymbol_eq {texts : List String} {s : List Token} {w : String} (h : Stops texts s)
    (hw : w ∈ texts) : s.head?.any (·.isSymbol w) = false := by
  have htext := h w hw
  cases s with
  | nil => rfl
  | cons u s =>
    refine Bool.eq_false_iff.mpr fun hu => ?_
    simp [Token.eq_of_isSymbol hu] at htext

theorem Stops.lacks {texts others : List String} {s : List Token} (h : Stops texts s)
    (hsub : others ⊆ texts) : Lacks others s := fun _ hw => h.isSymbol_eq (hsub hw)

theorem Outline.Marks.stops {source : List Char} {w : String} {texts : List String} {u : Token} {s : List Token}
    (h : Marks source w u) (hw : w ∉ texts) : Stops texts (u :: s) := by
  intro v hv
  have hne : w ≠ v := fun he => hw (he ▸ hv)
  simp [h.text, hne]

/-! ## Trees and outlines -/

def Renders (source : List Char) (t : Tree) (o : Outline) : Prop := t.outline source = o

namespace Renders

variable {source : List Char}

theorem leaf {kind : Tree.Kind} {span : Span} {text : String} (hkind : kind.isLeaf = true)
    (h : span.text source = text) : Renders source (.leaf kind span) (Outline.leaf kind text) := by
  rw [Renders, Tree.leaf, Tree.outline, if_pos hkind, h]
  rfl

theorem node {kind : Tree.Kind} {span : Span} {ts : List Tree} {os : List Outline} (hkind : kind.isLeaf = false)
    (h : List.Forall₂ (Renders source) ts os) : Renders source (.node kind span ts) (branch kind os) := by
  have hall : Tree.outlines source ts = os := by
    induction h with
    | nil => rfl
    | cons ht _ ih => rw [Tree.outlines, ht, ih]
  rw [Renders, Tree.outline, hall, if_neg (by simp [hkind])]
  rfl

end Renders

/-! ## Reading outlines -/

section Reading

variable (source : List Char)

/-- The tokens of the words derive a tree of the outline, before anything but `after`. -/
def Reads (p : Phrase) (after : List String) (o : Outline) (ws : List String := o.words) : Prop :=
  ∀ us rest, Spells source ws us → Stops after rest → ∃ t, Derives p us [t] rest ∧ Renders source t o

variable {source}

section
variable {us rest : List Token} {o name params args body value test left right : Outline} {op : String} {u c : Token}
  {sign cs : List Char} {ws after : List String} {form : Form} {os : List Outline} {p : Phrase} {kind : Tree.Kind}

theorem reads_name (ho : WellFormed .name o) : Reads source .name [] o := by
  intro us rest h _
  cases ho with
  | @name text hname =>
    change Spells source [text] us at h
    obtain ⟨hkind, hsigned⟩ := (lexical_name hname).leadKind_eq
    cases h with
    | token _ hu htext _ hspan h =>
      cases h
      refine ⟨_, .name (hu.trans hkind) (htext ▸ ?_), .leaf rfl hspan⟩
      unfold isName at hname
      split at hname
      · cases hname
      · simp only [Bool.and_eq_true, Bool.not_eq_true'] at hname
        simpa using hname.2
    | signed h =>
      rw [hsigned] at h
      cases h

/-! ### Lists and sequences -/

theorem stops_commas (hafter : "," ∉ after) (h : Spells source (commas os) us) (hrest : Stops after rest) :
    Stops after (us ++ rest) := by
  cases os with
  | nil =>
    cases h
    exact hrest
  | cons o os =>
    obtain ⟨c, us, rfl, hc, -⟩ := h.mark (w := ",") (by decide)
    exact hc.stops hafter

theorem derives_more (hos : ∀ o ∈ os, Reads source p after o) (hafter : "," ∉ after)
    (h : Spells source (commas os) us) (hrest : Stops ("," :: after) rest) :
    ∃ ts, Derives (.more p) us ts rest ∧ List.Forall₂ (Renders source) ts os := by
  induction os generalizing us with
  | nil =>
    cases h
    exact ⟨[], .noMore (hrest.isSymbol_eq (by simp)), .nil⟩
  | cons o os ih =>
    obtain ⟨c, us, rfl, hc, h⟩ := h.mark (by decide)
    obtain ⟨us, vs, rfl, hus, hvs⟩ := h.split
    obtain ⟨t, ht, hrenders⟩ := hos o (by simp) us (vs ++ rest) hus (stops_commas hafter hvs (hrest.sub (by simp)))
    obtain ⟨ts, hts, hall⟩ := ih (fun x hx => hos x (by simp [hx])) hvs
    exact ⟨t :: ts, .more hc.isSymbol ht hts, .cons hrenders hall⟩

theorem derives_list {close : String} (hos : ∀ o ∈ os, Reads source p after o) (hafter : "," ∉ after)
    (hp : close ∈ p.avoids) (hc : Marks source close c) (hclose : close ∉ "," :: after)
    (h : Spells source (list os) us) :
    ∃ ts, Derives (.list p close) us ts (c :: rest) ∧ List.Forall₂ (Renders source) ts os := by
  cases os with
  | nil =>
    cases h
    exact ⟨[], .noList hc.isSymbol, .nil⟩
  | cons o os =>
    obtain ⟨us, vs, rfl, hus, hvs⟩ := h.split
    have hstops : Stops ("," :: after) (c :: rest) := hc.stops hclose
    obtain ⟨t, ht, hrenders⟩ :=
      hos o (by simp) us (vs ++ c :: rest) hus (stops_commas hafter hvs (hstops.sub (by simp)))
    obtain ⟨ts, hts, hall⟩ := derives_more (fun x hx => hos x (by simp [hx])) hafter hvs hstops
    refine ⟨t :: ts, .list ht hts ?_, .cons hrenders hall⟩
    rw [List.append_assoc]
    exact ht.leads hus.named _ close hp

theorem derives_sequence {inside : Bool} (hos : ∀ o ∈ os, Reads source p after o) (hafter : ";" ∉ after)
    (hp : p.isList = false) (hbrace : rightBrace ∈ p.avoids) (hrest : closes inside rest = true)
    (h : Spells source (sequence os) us) :
    ∃ ts, Derives (.sequence p inside) us ts rest ∧ List.Forall₂ (Renders source) ts os := by
  induction os generalizing us with
  | nil =>
    cases h
    exact ⟨[], .noSequence hrest, .nil⟩
  | cons o os ih =>
    obtain ⟨us, _, rfl, hus, h⟩ := h.split
    obtain ⟨c, vs, rfl, hc, hvs⟩ := h.mark (by decide)
    obtain ⟨t, ht, hrenders⟩ := hos o (by simp) us (c :: (vs ++ rest)) hus (hc.stops hafter)
    obtain ⟨ts, hts, hall⟩ := ih (fun x hx => hos x (by simp [hx])) hvs
    refine ⟨t :: ts, .semicolon ht hc.isSymbol hts ?_, .cons hrenders hall⟩
    rw [List.append_assoc]
    exact ht.closes_eq_false hus.named hp hbrace _

theorem reads_parameters (ho : WellFormed .parameters o) : Reads source .parameters [] o := by
  intro us rest h _
  cases ho with
  | @parameters names hnames =>
    obtain ⟨b, us, c, rfl, hb, hlist, hc⟩ := h.bracket (w := "(") (v := ")") (by decide) (by decide)
    obtain ⟨ts, hts, hall⟩ :=
      derives_list (fun o ho => reads_name (hnames o ho)) (by simp) (by decide) hc (by decide) hlist
    exact ⟨_, .parameters hb.isSymbol hts hc.isSymbol, .node rfl hall⟩

/-! ### Expressions -/

def continuing : List String :=
  ["(", "[", "=>", "**"] ++ multiplicativeOperators ++ additiveOperators ++ comparisonOperators

section
variable {vs : List Token} {ts : List Tree} {l r : Tree}

theorem derives_sum (h : Derives .unary us ts rest) (hrest : Lacks ("**" :: multiplicativeOperators) rest) :
    Derives .sum us ts rest :=
  .ofProduct (.ofPower (.ofUnary h (hrest "**" (by simp)))) (hrest.sub (by simp))

theorem Outline.Marks.operator {texts : List String} {s : List Token} (h : Marks source op u) (hop : op ∈ texts) :
    Derives (.operator texts) [u] [.leaf .operator u.span] s := .operator hop h.isSymbol

theorem derives_arithmetic (hop : op ∈ ["+", "-", "*", "/", "%", "**"]) (hu : Marks source op u)
    (hleft : Derives .unary us [l] (u :: (vs ++ rest))) (hright : Derives .unary vs [r] rest)
    (hrest : Stops continuing rest) :
    Derives .comparison (us ++ u :: vs) [.covering .arithmetic [l, .leaf .operator u.span, r]] rest := by
  have hpower : Derives .power vs [r] rest := .ofUnary hright (hrest.isSymbol_eq (by decide))
  have hmultiplicative : Lacks multiplicativeOperators rest := hrest.lacks (by decide)
  -- the level at which the operator is read
  refine .ofSum ?_ (hrest.lacks (by decide))
  have hcases : ∀ w ∈ ["+", "-", "*", "/", "%", "**"],
      (w ∈ additiveOperators ∧ w ∉ "**" :: multiplicativeOperators) ∨
        (w ∈ multiplicativeOperators ∧ w ∉ ["**"]) ∨
        w = "**" := by decide
  rcases hcases op hop with ⟨hop, hother⟩ | ⟨hop, hother⟩ | rfl
  · have hsum := Derives.sum (derives_sum hleft (lacks_of_isSymbol hu.isSymbol hother)) (hu.operator hop)
      (.ofPower hpower) hmultiplicative
    exact hsum
  · have hbase := Derives.ofPower (.ofUnary hleft (lacks_of_isSymbol hu.isSymbol hother "**" (by simp)))
    have hproduct := Derives.product hbase (hu.operator hop) hpower
    exact .ofProduct hproduct hmultiplicative
  · have hpower := Derives.power hleft (hu.operator (by simp)) hpower
    exact .ofProduct (.ofPower hpower) hmultiplicative

theorem derives_comparison (hop : op ∈ ["==", "!=", ">", ">=", "<", "<="]) (hu : Marks source op u)
    (hleft : Derives .unary us [l] (u :: (vs ++ rest))) (hright : Derives .unary vs [r] rest)
    (hrest : Stops continuing rest) :
    Derives .comparison (us ++ u :: vs) [.covering .comparison [l, .leaf .operator u.span, r]] rest := by
  have hother : ∀ w ∈ ["==", "!=", ">", ">=", "<", "<="], w ∉ "**" :: multiplicativeOperators := by decide
  have hleft := derives_sum hleft (lacks_of_isSymbol hu.isSymbol (hother op hop))
  exact .comparison hleft (hu.operator hop) (derives_sum hright (hrest.lacks (by decide))) (hrest.lacks (by decide))

end

theorem Reads.unary (h : Reads source .primary after o) : Reads source .unary after o := by
  intro us rest hus hrest
  obtain ⟨t, ht, hrenders⟩ := h us rest hus hrest
  exact ⟨t, .ofPrimary ht (ht.leads hus.named rest "-" (by decide)), hrenders⟩

theorem reads_atom (hkind : isCompound o.kind = false) (h : Reads source .unary ["(", "["] o) :
    Reads source .expression continuing o ∧ Reads source .unary ["(", "["] o (operand o.kind o.words) := by
  have hoperand : operand o.kind o.words = o.words := by simp [operand, hkind]
  rw [hoperand]
  refine ⟨fun us rest hus hrest => ?_, h⟩
  obtain ⟨t, ht, hrenders⟩ := h us rest hus (hrest.sub (by decide))
  have hlead := ht.startsLambda_eq_false rfl hus.named (hrest "=>" (by decide))
  exact ⟨t, .ofComparison
    (.ofSum (derives_sum ht (hrest.lacks (by decide))) (hrest.lacks (by decide))) hlead, hrenders⟩

theorem reads_compound (hkind : isCompound o.kind = true) (h : Reads source .expression continuing o) :
    Reads source .expression continuing o ∧ Reads source .unary ["(", "["] o (operand o.kind o.words) := by
  refine ⟨h, fun us rest hus hrest => ?_⟩
  rw [operand, if_pos hkind] at hus
  obtain ⟨b, us, c, rfl, hb, hinside, hc⟩ := hus.bracket (by decide) (by decide)
  obtain ⟨t, ht, hrenders⟩ := h us (c :: rest) hinside (hc.stops (by decide))
  refine ⟨t, .ofPrimary (.parenthesized hb.isSymbol ht hc.isSymbol hb.kind) ?_, hrenders⟩
  exact Token.isSymbol_of_isSymbol hb.isSymbol "-"

theorem numberKind_eq (h : u.text = .ofList cs) : numberKind u = if '.' ∈ cs then .float else .integer := by
  rw [numberKind, h, String.toList_ofList]

theorem reads_number (hsign : sign = [] ∨ sign = ['-']) (hcs : Lexical .number cs)
    (hkind : (if '.' ∈ cs then Tree.Kind.float else .integer) = kind) :
    Reads source .unary ["(", "["] (leaf kind (.ofList (sign ++ cs))) [.ofList (sign ++ cs)] := by
  intro us rest h _
  have hleaf : kind.isLeaf = true := by
    rw [← hkind]
    split <;> rfl
  rcases hsign with rfl | rfl
  · obtain ⟨hlead, hunsigned⟩ := hcs.leadKind_eq
    cases h with
    | @token _ _ u _ _ hu htext _ hspan h =>
      cases h
      have hu : u.kind = .number := by simpa [hlead] using hu
      rw [← (numberKind_eq htext).trans hkind] at hleaf ⊢
      exact ⟨_, .ofPrimary (.number hu) (by simp [Token.isSymbol, hu]), .leaf hleaf hspan⟩
    | signed h => simp [hunsigned] at h
  · obtain ⟨c, ds, rfl, -⟩ := hcs.exists_cons
    cases h with
    | token h => simp [isSigned] at h
    | @signed _ _ m u _ _ hm hu htext hspan h =>
      cases h
      have htext : u.text = .ofList (c :: ds) := by
        have hlists := congrArg String.toList htext
        simp only [String.toList_append, String.toList_ofList] at hlists
        have htail : u.text.toList = c :: ds := List.append_cancel_left hlists
        rw [← htail, String.ofList_toList]
      rw [← (numberKind_eq htext).trans hkind] at hleaf ⊢
      exact ⟨_, .negative hm.isSymbol hu, .leaf hleaf hspan⟩

theorem reads_string (hcs : isQuoted cs = true) :
    Reads source .primary ["(", "["] (leaf .string (.ofList ('"' :: cs))) := by
  intro us rest h _
  obtain ⟨hlead, hunsigned⟩ := (Lexical.quoted hcs).leadKind_eq
  change Spells source [.ofList ('"' :: cs)] us at h
  cases h with
  | @token _ _ u _ _ hu htext _ hspan h =>
    cases h
    have hclosed : isTerminatedString u.text.toList = true := by
      rw [htext, String.toList_ofList]
      exact (closesAtEnd_eq cs).trans hcs
    exact ⟨_, .string (by simpa [hlead] using hu) hclosed, .leaf rfl hspan⟩
  | signed h => simp [hunsigned] at h

theorem reads_variable (ho : WellFormed .name o) : Reads source .primary ["(", "["] o := by
  intro us rest h hrest
  obtain ⟨t, ht, hrenders⟩ := reads_name ho us rest h nofun
  exact ⟨t, .ofName ht (hrest.lacks (by decide)), hrenders⟩

theorem derives_items {close : String} (hos : ∀ o ∈ os, Reads source .expression continuing o)
    (hclose : close ∈ [")", "]"]) (hc : Marks source close c) (h : Spells source (list os) us) :
    ∃ ts, Derives (.list .expression close) us ts (c :: rest) ∧ List.Forall₂ (Renders source) ts os := by
  have hcloses : ∀ w ∈ [")", "]"], w ∈ Phrase.expression.avoids ∧ w ∉ "," :: continuing := by decide
  obtain ⟨havoids, hnext⟩ := hcloses close hclose
  exact derives_list hos (by decide) havoids hc hnext h

theorem reads_arguments (hos : ∀ o ∈ os, Reads source .expression continuing o) :
    Reads source .arguments [] (branch .argumentList os) := by
  intro us rest h _
  obtain ⟨b, us, c, rfl, hb, h, hc⟩ := h.bracket (w := "(") (v := ")") (by decide) (by decide)
  obtain ⟨ts, hts, hall⟩ := derives_items hos (by simp) hc h
  exact ⟨_, .arguments hb.isSymbol hts hc.isSymbol, .node rfl hall⟩

theorem reads_listLiteral (hos : ∀ o ∈ os, Reads source .expression continuing o) :
    Reads source .primary ["(", "["] (branch .listLiteral os) := by
  intro us rest h _
  obtain ⟨b, us, c, rfl, hb, h, hc⟩ := h.bracket (w := "[") (v := "]") (by decide) (by decide)
  obtain ⟨ts, hts, hall⟩ := derives_items hos (by simp) hc h
  exact ⟨_, .listLiteral hb.isSymbol hts hc.isSymbol hb.kind, .node rfl hall⟩

theorem reads_call (hname : WellFormed .name name) (hargs : Reads source .arguments [] args) :
    Reads source .primary ["(", "["] (branch .call [name, args]) := by
  intro us rest h _
  obtain ⟨us, vs, rfl, hus, hvs⟩ := h.split
  obtain ⟨n, hn, hrendersName⟩ := reads_name hname us (vs ++ rest) hus nofun
  obtain ⟨t, ht, hrenders⟩ := hargs vs rest hvs nofun
  exact ⟨_, .call hn ht, .node rfl (.cons hrendersName (.cons hrenders .nil))⟩

theorem reads_access (hname : WellFormed .name name) (hindex : Reads source .expression continuing value) :
    Reads source .primary ["(", "["] (branch .listAccess [name, value]) := by
  intro us rest h _
  obtain ⟨us, _, rfl, hus, h⟩ := h.split
  obtain ⟨b, vs, c, rfl, hb, hvs, hc⟩ := h.bracket (by decide) (by decide)
  obtain ⟨n, hn, hrendersName⟩ := reads_name hname us (b :: (vs ++ [c] ++ rest)) hus nofun
  obtain ⟨t, ht, hrenders⟩ := hindex vs (c :: rest) hvs (hc.stops (by decide))
  exact ⟨_, .access hn hb.isSymbol ht hc.isSymbol, .node rfl (.cons hrendersName (.cons hrenders .nil))⟩

theorem isMark_operator (hop : op ∈ ["+", "-", "*", "/", "%", "**"] ∨ op ∈ ["==", "!=", ">", ">=", "<", "<="]) :
    isMark op = true ∧ op ∉ ["(", "[", "=>"] := by
  rw [← List.mem_append] at hop
  revert op
  decide +kernel

theorem reads_operation (hkind : kind.isLeaf = false)
    (hwords : (branch kind [left, leaf .operator op, right]).words =
      operand left.kind left.words ++ op :: operand right.kind right.words)
    (hop : op ∈ ["+", "-", "*", "/", "%", "**"] ∨ op ∈ ["==", "!=", ">", ">=", "<", "<="])
    (hderives : ∀ {us vs rest : List Token} {u : Token} {l r : Tree}, Marks source op u →
      Derives .unary us [l] (u :: (vs ++ rest)) → Derives .unary vs [r] rest → Stops continuing rest →
      Derives .comparison (us ++ u :: vs) [.covering kind [l, .leaf .operator u.span, r]] rest)
    (hleft : Reads source .unary ["(", "["] left (operand left.kind left.words))
    (hright : Reads source .unary ["(", "["] right (operand right.kind right.words)) :
    Reads source .expression continuing (branch kind [left, leaf .operator op, right]) := by
  intro us rest h hrest
  rw [hwords] at h
  obtain ⟨hmark, hnext⟩ := isMark_operator hop
  obtain ⟨us, _, rfl, hus, h⟩ := h.split
  obtain ⟨u, vs, rfl, hu, hvs⟩ := h.mark hmark
  have hstops : Stops ["(", "[", "=>"] (u :: (vs ++ rest)) := hu.stops hnext
  obtain ⟨l, hl, hrendersLeft⟩ := hleft us _ hus (hstops.sub (by simp))
  obtain ⟨r, hr, hrendersRight⟩ := hright vs rest hvs (hrest.sub (by decide))
  have hlead := hl.startsLambda_eq_false rfl hus.named (hstops "=>" (by simp))
  refine ⟨_, .ofComparison (hderives hu hl hr hrest) ?_,
    .node hkind (.cons hrendersLeft (.cons (.leaf rfl hu.span) (.cons hrendersRight .nil)))⟩
  rwa [List.append_assoc]

theorem reads_lambda (hparams : WellFormed .parameters params)
    (hbody : Reads source .block [] body ∨ Reads source .expression continuing body) :
    Reads source .expression continuing (branch .lambda [params, body]) := by
  intro us rest h hrest
  obtain ⟨us, _, rfl, hus, h⟩ := h.split
  obtain ⟨a, vs, rfl, ha, hvs⟩ := h.mark (by decide)
  obtain ⟨p, hp, hparams⟩ := reads_parameters hparams us (a :: (vs ++ rest)) hus nofun
  have hlead := hp.startsLambda hus.named ha.isSymbol (vs ++ rest)
  rw [← List.cons_append, ← List.append_assoc] at hlead
  rcases hbody with hbody | hbody
  · obtain ⟨b, hb, hrenders⟩ := hbody vs rest hvs nofun
    exact ⟨_, .ofLambda (.lambdaBlock hp ha.isSymbol hb) hlead, .node rfl (.cons hparams (.cons hrenders .nil))⟩
  · obtain ⟨b, hb, hrenders⟩ := hbody vs rest hvs hrest
    have hopen := hb.leads hvs.named rest leftBrace (by decide)
    exact ⟨_, .ofLambda (.lambdaValue hp ha.isSymbol hb hopen) hlead,
      .node rfl (.cons hparams (.cons hrenders .nil))⟩

/-! ### Statements -/

theorem reads_declaration {keyword : String}
    (hmake : ∀ {k e : Token} {us vs rest : List Token} {name value : Tree}, k.isSymbol keyword = true →
      Derives .name us [name] (e :: (vs ++ rest)) → e.isSymbol "=" = true →
      Derives .expression vs [value] rest → Derives .declaration (k :: (us ++ e :: vs))
      [.node kind (k.span.join value.span) [name, value]] rest)
    (hkind : kind.isLeaf = false) (hkeyword : isMark keyword = true) (hname : WellFormed .name name)
    (hvalue : Reads source .expression continuing value) :
    Reads source .declaration continuing (branch kind [name, value])
      (keyword :: (name.words ++ "=" :: value.words)) := by
  intro us rest h hrest
  obtain ⟨k, us, rfl, hk, h⟩ := h.mark hkeyword
  obtain ⟨us, _, rfl, hus, h⟩ := h.split
  obtain ⟨e, vs, rfl, he, hvs⟩ := h.mark (by decide)
  obtain ⟨n, hn, hrendersName⟩ := reads_name hname us (e :: (vs ++ rest)) hus nofun
  obtain ⟨t, ht, hrenders⟩ := hvalue vs rest hvs hrest
  exact ⟨_, hmake hk.isSymbol hn he.isSymbol ht, .node hkind (.cons hrendersName (.cons hrenders .nil))⟩

theorem reads_block (hos : ∀ o ∈ os, Reads source .statement ("else" :: continuing) o) :
    Reads source .block [] (branch .block os) := by
  intro us rest h _
  obtain ⟨b, us, c, rfl, hb, hus, hc⟩ := h.bracket (w := leftBrace) (v := rightBrace) (by decide) (by decide)
  have hend : closes true (c :: rest) = true := hc.isSymbol
  obtain ⟨ts, hts, hall⟩ := derives_sequence hos (by decide) rfl (by decide) hend hus
  exact ⟨_, .block hb.isSymbol hts hc.isSymbol, .node rfl hall⟩

/-! ### Conditions -/

section
variable {other link : Outline} (hkind : kind = .ifStatement ∨ kind = .elseIf)
  (htest : Reads source .expression continuing test) (hbody : Reads source .block [] body)

include hkind

theorem words_conditional (tail : List Outline) : (branch kind (test :: body :: tail)).words =
    "if" :: "(" :: (test.words ++ ")" :: (body.words ++ otherwise tail)) := by
  rcases hkind with rfl | rfl <;> rfl

theorem isLeaf_conditional : kind.isLeaf = false := by
  rcases hkind with rfl | rfl <;> rfl

omit hkind in
theorem spells_branch (h : Spells source ("if" :: "(" :: (test.words ++ ")" :: (body.words ++ ws))) us) :
    ∃ k o c xs ys vs, us = k :: o :: (xs ++ c :: (ys ++ vs)) ∧ Marks source "if" k ∧ Marks source "(" o ∧
      Marks source ")" c ∧ Spells source test.words xs ∧ Spells source body.words ys ∧ Spells source ws vs := by
  obtain ⟨k, us, rfl, hk, h⟩ := h.mark (by decide)
  obtain ⟨o, us, rfl, ho, h⟩ := h.mark (by decide)
  obtain ⟨xs, _, rfl, hxs, h⟩ := h.split
  obtain ⟨c, us, rfl, hc, h⟩ := h.mark (by decide)
  obtain ⟨ys, vs, rfl, hys, hvs⟩ := h.split
  exact ⟨k, o, c, xs, ys, vs, rfl, hk, ho, hc, hxs, hys, hvs⟩

include htest hbody

theorem reads_ifThen : Reads source (.conditional kind) ["else"] (branch kind [test, body]) := by
  intro us rest h hrest
  rw [words_conditional hkind] at h
  obtain ⟨k, o, c, xs, ys, _, rfl, hk, ho, hc, hxs, hys, ⟨⟩⟩ := spells_branch h
  rw [List.append_nil]
  obtain ⟨x, hx, hrendersTest⟩ := htest xs (c :: (ys ++ rest)) hxs (hc.stops (by decide))
  obtain ⟨y, hy, hrendersBody⟩ := hbody ys rest hys nofun
  exact ⟨_, .ifThen hkind hk.isSymbol ho.isSymbol hx hc.isSymbol hy (hrest.isSymbol_eq (by decide)),
    .node (isLeaf_conditional hkind) (.cons hrendersTest (.cons hrendersBody .nil))⟩

theorem reads_ifElse (hother : Reads source .block [] other) :
    Reads source (.conditional kind) ["else"] (branch kind [test, body, branch .elseStatement [other]]) := by
  intro us rest h hrest
  rw [words_conditional hkind] at h
  obtain ⟨k, o, c, xs, ys, _, rfl, hk, ho, hc, hxs, hys, h⟩ := spells_branch h
  obtain ⟨e, vs, rfl, he, hvs⟩ := h.mark (w := "else") (by decide)
  obtain ⟨x, hx, hrendersTest⟩ := htest xs (c :: (ys ++ e :: vs ++ rest)) hxs (hc.stops (by decide))
  obtain ⟨y, hy, hrendersBody⟩ := hbody ys (e :: (vs ++ rest)) hys nofun
  obtain ⟨z, hz, hrendersOther⟩ := hother vs rest hvs nofun
  exact ⟨_, .ifElse hkind hk.isSymbol ho.isSymbol hx hc.isSymbol hy he.isSymbol hz, .node (isLeaf_conditional hkind)
    (.cons hrendersTest (.cons hrendersBody (.cons (.node rfl (.cons hrendersOther .nil)) .nil)))⟩

theorem reads_ifElseIf (hlink : Reads source (.conditional .elseIf) ["else"] link) :
    Reads source (.conditional kind) ["else"] (branch kind [test, body, link]) := by
  intro us rest h hrest
  rw [words_conditional hkind] at h
  obtain ⟨k, o, c, xs, ys, _, rfl, hk, ho, hc, hxs, hys, h⟩ := spells_branch h
  obtain ⟨e, vs, rfl, he, hvs⟩ := h.mark (w := "else") (by decide)
  obtain ⟨x, hx, hrendersTest⟩ := htest xs (c :: (ys ++ e :: vs ++ rest)) hxs (hc.stops (by decide))
  obtain ⟨y, hy, hrendersBody⟩ := hbody ys (e :: (vs ++ rest)) hys nofun
  obtain ⟨z, hz, hrendersLink⟩ := hlink vs rest hvs hrest
  exact ⟨_, .ifElseIf hkind hk.isSymbol ho.isSymbol hx hc.isSymbol hy he.isSymbol hz, .node (isLeaf_conditional hkind)
    (.cons hrendersTest (.cons hrendersBody (.cons hrendersLink .nil)))⟩

end

/-! ### Other statements -/

theorem Reads.mono {q : Phrase} {others : List String} (h : Reads source p after o) (hsub : after ⊆ others)
    (hpq : ∀ us t rest, Spells source o.words us → Derives p us [t] rest → Derives q us [t] rest) :
    Reads source q others o := by
  intro us rest hus hrest
  obtain ⟨t, ht, hrenders⟩ := h us rest hus (hrest.sub hsub)
  exact ⟨t, hpq us t rest hus ht, hrenders⟩

theorem reads_function (hname : WellFormed .name name) (hparams : WellFormed .parameters params)
    (hbody : Reads source .block [] body) :
    Reads source .statement ("else" :: continuing) (branch .functionDeclaration [name, params, body]) := by
  intro us rest h _
  obtain ⟨k, us, rfl, hk, h⟩ := h.mark (w := "fun") (by decide)
  obtain ⟨us, _, rfl, hus, h⟩ := h.split
  obtain ⟨vs, ws, rfl, hvs, hws⟩ := h.split
  obtain ⟨n, hn, hrendersName⟩ := reads_name hname us (vs ++ ws ++ rest) hus nofun
  obtain ⟨p, hp, hrendersParams⟩ := reads_parameters hparams vs (ws ++ rest) hvs nofun
  obtain ⟨b, hb, hrendersBody⟩ := hbody ws rest hws nofun
  exact ⟨_, .function hk.isSymbol hn hp hb,
    .node rfl (.cons hrendersName (.cons hrendersParams (.cons hrendersBody .nil)))⟩

theorem reads_letIn (hos : ∀ o ∈ os, Reads source .declaration continuing o) (hbody : Reads source .block [] body) :
    Reads source .statement ("else" :: continuing) (branch .letIn (os ++ [body])) := by
  intro us rest h _
  have h : Spells source ("let" :: leftBrace :: declarations (os ++ [body])) us := h
  rw [declarations_concat] at h
  obtain ⟨k, us, rfl, hk, h⟩ := h.mark (by decide)
  obtain ⟨o, us, rfl, ho, h⟩ := h.mark (by decide)
  obtain ⟨us, _, rfl, hus, h⟩ := h.split
  obtain ⟨c, vs, rfl, hc, h⟩ := h.mark (by decide)
  obtain ⟨i, vs, rfl, hi, hvs⟩ := h.mark (by decide)
  have hend : closes true (c :: i :: (vs ++ rest)) = true := hc.isSymbol
  obtain ⟨ts, hts, hall⟩ := derives_sequence hos (by decide) rfl (by decide) hend hus
  obtain ⟨b, hb, hrenders⟩ := hbody vs rest hvs nofun
  exact ⟨_, .ofLetIn (.letIn hk.isSymbol ho.isSymbol hts hc.isSymbol hi.isSymbol hb),
    .node rfl (List.rel_append hall (.cons hrenders .nil))⟩

theorem reads_return (h : Reads source .expression continuing value) :
    Reads source .statement ("else" :: continuing) (branch .returnStatement [value]) := by
  intro us rest hus hrest
  obtain ⟨u, us, rfl, hu, hus⟩ := hus.mark (w := "return") (by decide)
  obtain ⟨t, ht, hrenders⟩ := h us rest hus (hrest.sub (by simp))
  exact ⟨_, .ret hu.isSymbol ht, .node rfl (.cons hrenders .nil)⟩

theorem reads_print (h : Reads source .arguments [] args) :
    Reads source .statement ("else" :: continuing) (branch .printStatement [args]) := by
  intro us rest hus _
  obtain ⟨u, us, rfl, hu, hus⟩ := hus.mark (w := "print") (by decide)
  obtain ⟨t, ht, hrenders⟩ := h us rest hus nofun
  exact ⟨_, .print hu.isSymbol ht, .node rfl (.cons hrenders .nil)⟩

theorem reads_expressionStatement (h : Reads source .expression continuing value) :
    Reads source .statement ("else" :: continuing) (branch .expressionStatement [value]) := by
  intro us rest hus hrest
  obtain ⟨t, ht, hrenders⟩ := h us rest hus (hrest.sub (by simp))
  exact ⟨_, .ofExpression ht ((ht.leads hus.named rest).sub (by decide)), .node rfl (.cons hrenders .nil)⟩

/-! ### All outlines -/

def Reading (source : List Char) : Form → Outline → Prop
  | .arguments, o => Reads source .arguments [] o
  | .expression, o =>
    Reads source .expression continuing o ∧ Reads source .unary ["(", "["] o (operand o.kind o.words)
  | .declaration, o => Reads source .declaration continuing o
  | .statement, o => Reads source .statement ("else" :: continuing) o
  | .conditional kind, o => Reads source (.conditional kind) ["else"] o
  | .block, o => Reads source .block [] o
  | .name, _ | .parameters, _ | .program, _ => True

theorem reading_of_wellFormed (h : WellFormed form o) : Reading source form o := by
  induction h with
  | name | parameters | program => trivial
  | arguments _ ih => exact reads_arguments fun o ho => (ih o ho).1
  | ofName h => exact reads_atom (by cases h; rfl) (reads_variable h).unary
  | integer hsign h =>
    refine reads_atom rfl (reads_number hsign (lexical_digits h) (if_neg fun hpoint => ?_))
    simp only [areDigits, Bool.and_eq_true, List.all_eq_true] at h
    exact absurd (h.2 '.' hpoint) (by decide)
  | float hsign hwhole hdecimals =>
    exact reads_atom rfl (reads_number hsign (lexical_point hwhole hdecimals) (if_pos (by simp)))
  | string h => exact reads_atom rfl (reads_string h).unary
  | arithmetic _ hop _ ihleft ihright =>
    exact reads_compound rfl (reads_operation rfl rfl (.inl hop) (derives_arithmetic hop) ihleft.2 ihright.2)
  | comparison _ hop _ ihleft ihright =>
    exact reads_compound rfl (reads_operation rfl rfl (.inr hop) (derives_comparison hop) ihleft.2 ihright.2)
  | call hname _ _ ihargs => exact reads_atom rfl (reads_call hname ihargs).unary
  | access hname _ _ ihindex => exact reads_atom rfl (reads_access hname ihindex.1).unary
  | listLiteral _ ih => exact reads_atom rfl (reads_listLiteral fun o ho => (ih o ho).1).unary
  | lambda hparams hform _ _ ihbody =>
    refine reads_compound rfl (reads_lambda hparams ?_)
    rcases hform with rfl | rfl
    · exact .inl ihbody
    · exact .inr ihbody.1
  | letDeclaration hname _ _ ihvalue => exact reads_declaration .letDeclaration rfl (by decide) hname ihvalue.1
  | constDeclaration hname _ _ ihvalue => exact reads_declaration .constDeclaration rfl (by decide) hname ihvalue.1
  | ofDeclaration _ ih => exact Reads.mono ih (by simp) fun _ _ _ hus h => h.ofDeclaration_of_named hus.named
  | letIn _ _ ihdecls ihbody => exact reads_letIn ihdecls ihbody
  | function hname hparams _ _ _ ihbody => exact reads_function hname hparams ihbody
  | ofConditional _ ih => exact Reads.mono ih (by simp) fun _ _ _ _ h => .ofConditional h
  | ret _ ih => exact reads_return ih.1
  | print _ ih => exact reads_print ih
  | ofBlock _ ih => exact Reads.mono ih (by simp) fun _ _ _ _ h => .ofBlock h
  | ofExpression _ ih => exact reads_expressionStatement ih.1
  | ifThen hkind _ _ ihtest ihbody => exact reads_ifThen hkind ihtest.1 ihbody
  | ifElse hkind _ _ _ ihtest ihbody ihother => exact reads_ifElse hkind ihtest.1 ihbody ihother
  | ifElseIf hkind _ _ _ ihtest ihbody ihlink => exact reads_ifElseIf hkind ihtest.1 ihbody ihlink
  | block _ ih => exact reads_block ih

end

end Reading

/-- Every outline of a program, once printed, is parsed to a tree with its kinds, their nesting and the texts of
its tokens. A print of 2³² bytes or more is left out, as spans count modulo 2³². -/
theorem Outline.parse_print {o : Outline} (h : WellFormed .program o) (hsize : byteLength o.print < 2 ^ 32) :
    ∃ tree, Tree.parse o.print = .ok tree ∧ tree.outline o.print = o := by
  have hspells : Spells o.print o.words ((Token.scan o.print).filter (·.kind ≠ .comment)) :=
    spells_tokens h.printed hsize
  cases h with
  | @program os hos =>
    generalize (branch .program os).print = source at *
    obtain ⟨ts, hts, hall⟩ := derives_sequence (fun o ho => reading_of_wellFormed (hos o ho))
      (by decide) rfl (by decide) (show closes false [] = true from rfl) hspells
    have hrenders : Renders source (.node .program (.ofOffsets 0 (byteLength source)) ts) (branch .program os) :=
      .node rfl hall
    exact ⟨_, Tree.parse_of_derives hts, hrenders⟩

def printedOutline : Outline :=
  branch .program [
    branch .letDeclaration [leaf .identifier "f", branch .lambda [
      branch .parameterList [leaf .identifier "x"],
      branch .arithmetic [leaf .integer "-2", leaf .operator "**",
        branch .arithmetic [leaf .identifier "x", leaf .operator "-", leaf .float "1.5"]]]],
    branch .ifStatement [
      branch .comparison [branch .call [leaf .identifier "f", branch .argumentList []], leaf .operator "<=",
        leaf .identifier "y"],
      branch .block [],
      branch .elseStatement [branch .block [branch .printStatement [branch .argumentList [leaf .string "\"a b\""]]]]]]

theorem printedOutline_wellFormed : WellFormed .program printedOutline := by
  have hname : ∀ text ∈ ["f", "x", "y"], WellFormed .name (leaf .identifier text) := by
    have hnames : ∀ text ∈ ["f", "x", "y"], isName text = true := by decide +kernel
    exact fun text htext => .name (hnames text htext)
  have hinteger : WellFormed .expression (leaf .integer "-2") :=
    .integer (.inr rfl) (show areDigits ['2'] = true by decide)
  have hfloat : WellFormed .expression (leaf .float "1.5") :=
    .float (.inl rfl) (show areDigits ['1'] = true by decide) (show areDigits ['5'] = true by decide)
  have hstring : WellFormed .expression (leaf .string "\"a b\"") :=
    .string (show isQuoted "a b\"".toList = true by decide)
  have hlambda : WellFormed .expression (branch .lambda [branch .parameterList [leaf .identifier "x"],
      branch .arithmetic [leaf .integer "-2", leaf .operator "**",
        branch .arithmetic [leaf .identifier "x", leaf .operator "-", leaf .float "1.5"]]]) :=
    .lambda (.parameters (by simpa using hname "x" (by simp))) (.inr rfl)
      (.arithmetic hinteger (by simp) (.arithmetic (.ofName (hname "x" (by simp))) (by simp) hfloat))
  have hcall : WellFormed .expression (branch .call [leaf .identifier "f", branch .argumentList []]) :=
    .call (hname "f" (by simp)) (.arguments nofun)
  have hother : WellFormed .block
      (branch .block [branch .printStatement [branch .argumentList [leaf .string "\"a b\""]]]) :=
    .block (by simpa using WellFormed.print (.arguments (by simpa using hstring)))
  refine .program (List.forall_mem_cons.mpr ⟨?_, List.forall_mem_singleton.mpr ?_⟩)
  · exact .ofDeclaration (.letDeclaration (hname "f" (by simp)) hlambda)
  · refine .ofConditional (.ifElse (.inl rfl) ?_ (.block nofun) hother)
    exact .comparison hcall (by simp) (.ofName (hname "y" (by simp)))

theorem Outline.parse_print_of_printedOutline :
    printedOutline.print = ("let f = ( x ) => -2 ** ( x - 1.5 ) ; if ( f ( ) <= y ) \x7b \x7d else " ++
      "\x7b print ( \"a b\" ) ; \x7d ;").toList ∧ WellFormed .program printedOutline ∧
    byteLength printedOutline.print < 2 ^ 32 ∧
    ∃ tree, Tree.parse printedOutline.print = .ok tree ∧ tree.outline printedOutline.print = printedOutline :=
  have hsize : byteLength printedOutline.print < 2 ^ 32 := by decide +kernel
  ⟨by decide +kernel, printedOutline_wellFormed, hsize, Outline.parse_print printedOutline_wellFormed hsize⟩

end Bies
