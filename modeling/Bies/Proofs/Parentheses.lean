import Bies.Proofs.TreeSpans

/-!
# Parentheses among tokens

Every phrase of the grammar closes the parentheses it opens. Parentheses that only group belong to no tree, so the
tokens of an expression may begin and end with some that its span leaves out. What is under the span is balanced
only if there are none.
-/

namespace Bies
namespace Token

/-! ## Depth -/

/-- How many parentheses are open behind the tokens if `depth` were before; none if one closes that was not opened. -/
def depth? (depth : Nat) : List Token → Option Nat
  | [] => some depth
  | t :: ts =>
    if t.isSymbol "(" then depth? (depth + 1) ts
    else if t.isSymbol ")" then if depth = 0 then none else depth? (depth - 1) ts
    else depth? depth ts

/-- Every parenthesis that opens is closed, and the other way round. -/
def balanced (ts : List Token) : Bool := depth? 0 ts == some 0

section
variable {t o c : Token} {us vs : List Token} {depth k : Nat}

theorem depth?_append (us vs : List Token) (depth : Nat) :
    depth? depth (us ++ vs) = (depth? depth us).bind (depth? · vs) := by
  fun_induction depth? depth us <;> simp_all [depth?]

theorem depth?_add (h : depth? depth us = some k) (more : Nat) : depth? (depth + more) us = some (k + more) := by
  fun_induction depth? depth us with
  | case1 => simp_all [depth?]
  | case2 depth t us hopen ih =>
    rw [depth?, if_pos hopen, Nat.add_right_comm]
    exact ih h
  | case3 => cases h
  | case4 depth t us hopen hclose hdepth ih =>
    rw [depth?, if_neg hopen, if_pos hclose, if_neg (by omega), Nat.sub_add_comm (Nat.pos_of_ne_zero hdepth)]
    exact ih h
  | case5 depth t us hopen hclose ih =>
    rw [depth?, if_neg hopen, if_neg hclose]
    exact ih h

theorem depth?_opens (h : ∀ o ∈ us, o.isSymbol "(" = true) : depth? depth us = some (depth + us.length) := by
  induction us generalizing depth with
  | nil => rfl
  | cons o us ih =>
    rw [List.forall_mem_cons] at h
    rw [depth?, if_pos h.1, ih h.2, List.length_cons, Nat.add_right_comm, Nat.add_assoc]

theorem depth?_closes (h : ∀ c ∈ us, c.isSymbol ")" = true) (hk : depth? depth us = some k) :
    depth = k + us.length := by
  induction us generalizing depth with
  | nil =>
    cases hk
    rfl
  | cons c us ih =>
    rw [List.forall_mem_cons] at h
    have hopen : c.isSymbol "(" = false := isSymbol_of_isSymbol h.1 "("
    rw [depth?, if_neg (by simp [hopen]), if_pos h.1] at hk
    split at hk
    · cases hk
    · have := ih h.2 hk
      rw [List.length_cons]
      omega

def Neutral (us : List Token) : Prop := Named us → ∀ depth, depth? depth us = some depth

namespace Neutral

theorem nil : Neutral [] := fun _ _ => rfl

theorem append (h : Neutral us) (h' : Neutral vs) : Neutral (us ++ vs) := by
  intro hnamed depth
  rw [named_append] at hnamed
  rw [depth?_append, h hnamed.1]
  exact h' hnamed.2 depth

theorem token (h : t.IsNamed → t.isSymbol "(" = false ∧ t.isSymbol ")" = false) : Neutral [t] := by
  intro hnamed depth
  simp [depth?, h (hnamed t (by simp))]

theorem symbol {text : String} (ht : t.isSymbol text = true) (h : text ∉ ["(", ")"] := by decide) : Neutral [t] := by
  simp only [List.mem_cons, List.not_mem_nil, or_false, not_or, ← beq_eq_false_iff_ne] at h
  exact token fun _ => by rwa [isSymbol_of_isSymbol ht, isSymbol_of_isSymbol ht]

theorem cons {text : String} (h : Neutral us) (ht : t.isSymbol text = true) (htext : text ∉ ["(", ")"] := by decide) :
    Neutral (t :: us) := (symbol ht htext).append h

theorem literal (h : t.kind = .number ∨ t.kind = .string) : Neutral [t] :=
  token fun _ => by rcases h with h | h <;> simp [isSymbol, h]

theorem group (h : Neutral us) (ho : o.isSymbol "(" = true) (hc : c.isSymbol ")" = true) :
    Neutral (o :: (us ++ [c])) := by
  intro hnamed depth
  have hus := h (hnamed.subset (by simp)) (depth + 1)
  have hopen : c.isSymbol "(" = false := isSymbol_of_isSymbol hc "("
  simp [depth?, ho, depth?_append, hus, hopen, hc]

end Neutral

end
end Token

open Token Bies.Parser

/-- No parenthesis is an operator of the phrase. -/
def Phrase.isBare : Phrase → Bool
  | .operator texts => texts.all (· ∉ ["(", ")"])
  | .list p _ | .more p | .sequence p _ => p.isBare
  | _ => true

theorem Derives.neutral {p : Phrase} {us rest : List Token} {ts : List Tree} (h : Derives p us ts rest)
    (hp : p.isBare = true) : Neutral us := by
  induction h with
  | name hkind => exact .token fun hnamed => ⟨hnamed.isSymbol_eq hkind, hnamed.isSymbol_eq hkind⟩
  | operator htext ht => exact .symbol ht (by simpa using List.all_eq_true.mp hp _ htext)
  | noList | noMore | noSequence => exact .nil
  | list _ _ _ iht ihts | sequence _ _ _ _ iht ihts => exact (iht hp).append (ihts hp)
  | more hc _ _ iht ihts => exact ((iht hp).append (ihts hp)).cons hc
  | semicolon _ hc _ _ iht ihts => exact (iht hp).append ((ihts hp).cons hc)
  | parameters ho _ hc ih | arguments ho _ hc ih | parenthesized ho _ hc _ ih => exact (ih rfl).group ho hc
  | block ho _ hc ih | listLiteral ho _ hc _ ih => exact ((ih rfl).append (.symbol hc)).cons ho
  | letDeclaration hk _ he _ ihname ihvalue | constDeclaration hk _ he _ ihname ihvalue =>
    exact ((ihname rfl).append ((ihvalue rfl).cons he)).cons hk
  | letIn hk ho _ hc hi _ ihds ihbody =>
    exact (((ihds rfl).append (((ihbody rfl).cons hi).cons hc)).cons ho).cons hk
  | function hk _ _ _ ihname ihparams ihbody =>
    exact ((ihname rfl).append ((ihparams rfl).append (ihbody rfl))).cons hk
  | ret hk _ ih | print hk _ ih => exact (ih rfl).cons hk
  | @ifThen _ _ _ _ _ vs _ _ _ _ hk ho _ hc _ _ ihtest ihbody =>
    simpa using (((ihtest rfl).group ho hc).append (ihbody rfl)).cons hk
  | ifElse _ hk ho _ hc _ he _ ihtest ihbody ihother | ifElseIf _ hk ho _ hc _ he _ ihtest ihbody ihother =>
    simpa using (((ihtest rfl).group ho hc).append ((ihbody rfl).append ((ihother rfl).cons he))).cons hk
  | lambdaBlock _ ha _ ihparams ihbody | lambdaValue _ ha _ _ ihparams ihbody =>
    exact (ihparams rfl).append ((ihbody rfl).cons ha)
  | comparison _ _ _ _ ihleft ihop ihright | sum _ _ _ _ ihleft ihop ihright | product _ _ _ ihleft ihop ihright
  | power _ _ _ ihleft ihop ihright => exact (ihleft rfl).append ((ihop (by decide)).append (ihright rfl))
  | negative hm hkind => exact (Neutral.literal (.inl hkind)).cons hm
  | number hkind => exact .literal (.inl hkind)
  | string hkind => exact .literal (.inr hkind)
  | call _ _ ihname ihargs => exact (ihname rfl).append (ihargs rfl)
  | access _ ho _ hc ihname ihindex => exact (ihname rfl).append (((ihindex rfl).append (.symbol hc)).cons ho)
  | ofDeclaration _ _ ih | ofLetIn _ ih | ofConditional _ ih | ofBlock _ ih | ofExpression _ _ ih | ofLambda _ _ ih
  | ofComparison _ _ ih | ofSum _ _ ih | ofProduct _ _ ih | ofPower _ ih | ofUnary _ _ ih | ofPrimary _ _ ih
  | ofName _ _ ih => exact ih rfl

/-! ## Parentheses that a span leaves out -/

/-- The span goes from the first of the tokens to the last. -/
def Span.Ends (s : Span) (us : List Token) : Prop :=
  us.head?.map (·.span.start) = some s.start ∧ us.getLast?.map (·.span.stop) = some s.stop

theorem Span.Ends.append {s t : Span} {us ws : List Token} (h : s.Ends us) (h' : t.Ends ws) (vs : List Token) :
    Ends ⟨s.start, t.stop⟩ (us ++ (vs ++ ws)) := by
  obtain ⟨first, hfirst, hstart⟩ := Option.map_eq_some_iff.mp h.1
  obtain ⟨last, hlast, hstop⟩ := Option.map_eq_some_iff.mp h'.2
  constructor
  · rw [List.head?_append, hfirst]
    exact congrArg some hstart
  · rw [List.getLast?_append, List.getLast?_append, hlast]
    exact congrArg some hstop

theorem Span.ends_bracket {s : Span} {o c : Token} {us : List Token} (h : s = ⟨o.span.start, c.span.stop⟩) :
    s.Ends (o :: (us ++ [c])) := by
  rw [h]
  exact ⟨rfl, by rw [← List.cons_append, List.getLast?_concat]; rfl⟩

/-- The phrases that are read as one tree, which their first and last tokens belong to, parentheses apart. -/
def Phrase.isValue : Phrase → Bool
  | .parameters | .arguments | .block | .expression | .lambda => true
  | .name | .comparison | .sum | .product | .power | .unary | .primary => true
  | _ => false

/-- The span covers `mid`, with parentheses only before it and behind it. -/
structure Flanks (s : Span) (opens mid closes : List Token) : Prop where
  ends : s.Ends mid
  before : ∀ o ∈ opens, o.isSymbol "(" = true
  behind : ∀ c ∈ closes, c.isSymbol ")" = true

def Flanked (us : List Token) (ts : List Tree) : Prop :=
  Row us → ∃ t opens mid closes, ts = [t] ∧ us = opens ++ (mid ++ closes) ∧ Flanks t.span opens mid closes

namespace Flanked

variable {u o c : Token} {us vs ws : List Token} {ts : List Tree} {kind : Tree.Kind} {left right : Tree}

theorem token : Flanked [u] [.leaf kind u.span] :=
  fun _ => ⟨_, [], [u], [], rfl, rfl, ⟨rfl, rfl⟩, nofun, nofun⟩

theorem bracket (hspan : Row (o :: (us ++ [c])) → o.span.join c.span = ⟨o.span.start, c.span.stop⟩) :
    Flanked (o :: (us ++ [c])) [.node kind (o.span.join c.span) ts] :=
  fun hrow => ⟨_, [], o :: (us ++ [c]), [], rfl, by simp, Span.ends_bracket (hspan hrow), nofun, nofun⟩

theorem group (h : Flanked us ts) (ho : o.isSymbol "(" = true) (hc : c.isSymbol ")" = true) :
    Flanked (o :: (us ++ [c])) ts := by
  intro hrow
  obtain ⟨t, opens, mid, closes, rfl, rfl, hflanks⟩ := h (hrow.sublist (.cons _ (List.sublist_append_left _ [c])))
  refine ⟨t, o :: opens, mid, closes ++ [c], rfl, by simp, hflanks.ends, ?_, ?_⟩
  · exact List.forall_mem_cons.mpr ⟨ho, hflanks.before⟩
  · exact List.forall_mem_append.mpr ⟨hflanks.behind, List.forall_mem_singleton.mpr hc⟩

theorem across {t : Tree} (h : Flanked us [left]) (h' : Flanked ws [right])
    (hspan : Row (us ++ (vs ++ ws)) → t.span = ⟨left.span.start, right.span.stop⟩) :
    Flanked (us ++ (vs ++ ws)) [t] := by
  intro hrow
  obtain ⟨_, opens, mid, closes, ⟨⟩, rfl, hflanks⟩ := h hrow.left
  obtain ⟨_, opens', mid', closes', ⟨⟩, rfl, hflanks'⟩ := h' hrow.right.right
  refine ⟨t, opens, mid ++ ((closes ++ vs ++ opens') ++ mid'), closes', rfl, by simp, ?_, hflanks.before,
    hflanks'.behind⟩
  rw [hspan hrow]
  exact hflanks.ends.append hflanks'.ends _

end Flanked

theorem Derives.flanked {p : Phrase} {us rest : List Token} {ts : List Tree} (h : Derives p us ts rest)
    (hp : p.isValue = true) : Flanked us ts := by
  induction h with
  | name | number | string => exact .token
  | parameters _ hts | arguments _ hts | block _ hts | listLiteral _ hts =>
    exact .bracket (hts.spreads.close.token.join_eq _)
  | negative =>
    rw [← List.nil_append [_]]
    exact .bracket (Spreads.nil.token.token.join_eq [])
  | parenthesized ho _ hc _ ih => exact (ih rfl).group ho hc
  | lambdaBlock hparams _ hbody ihparams ihbody | lambdaValue hparams _ hbody _ ihparams ihbody =>
    rw [← List.singleton_append]
    exact (ihparams rfl).across (ihbody rfl) ((hparams.spreads.append hbody.spreads.skip).join_eq [])
  | comparison hleft hop hright _ ihleft _ ihright | sum hleft hop hright _ ihleft _ ihright
  | product hleft hop hright ihleft _ ihright | power hleft hop hright ihleft _ ihright =>
    exact (ihleft rfl).across (ihright rfl)
      fun hrow => ((hleft.spreads.append (hop.spreads.append hright.spreads)).covering_span hrow).1
  | @call us vs _ _ _ hname hargs ihname ihargs =>
    rw [← List.nil_append vs]
    exact (ihname rfl).across (ihargs rfl) fun hrow => ((hname.spreads.append hargs.spreads).covering_span hrow).1
  | @access o c us vs _ _ _ hname _ hindex _ ihname =>
    have hlast : Flanked [c] [.leaf .operator c.span] := .token
    rw [← List.cons_append]
    exact (ihname rfl).across hlast ((hname.spreads.append hindex.spreads.close.skip).join_eq _)
  | ofLambda _ _ ih | ofComparison _ _ ih | ofSum _ _ ih | ofProduct _ _ ih | ofPower _ ih | ofUnary _ _ ih
  | ofPrimary _ _ ih | ofName _ _ ih => exact ih rfl
  | _ => cases hp

/-! ## The tokens under a span -/

theorem Phrase.isBare_of_isValue {p : Phrase} (h : p.isValue = true) : p.isBare = true := by
  cases p <;> first | rfl | cases h

section
variable {p q : Phrase} {us vs ws rest rest' : List Token} {left right : Tree} {s : Span}

/-- A parenthesis that is left out at one end is missing among the rest. -/
theorem Token.eq_nil_of_balanced {opens inner inner' closes : List Token}
    (hus : ∀ depth, depth? depth (opens ++ inner) = some depth) (hvs : ∀ depth, depth? depth vs = some depth)
    (hws : ∀ depth, depth? depth (inner' ++ closes) = some depth) (hopens : ∀ o ∈ opens, o.isSymbol "(" = true)
    (hcloses : ∀ c ∈ closes, c.isSymbol ")" = true) (h : balanced (inner ++ (vs ++ inner')) = true) :
    opens = [] ∧ closes = [] := by
  rw [balanced, beq_iff_eq, depth?_append] at h
  obtain ⟨k, hinner, h⟩ := Option.bind_eq_some_iff.mp h
  have hopened := hus 0
  rw [depth?_append, depth?_opens hopens, Option.bind_some, depth?_add hinner, Option.some.injEq] at hopened
  obtain ⟨rfl, hnone⟩ : k = 0 ∧ opens.length = 0 := by omega
  rw [depth?_append, hvs, Option.bind_some] at h
  have hclosed := hws 0
  rw [depth?_append, h] at hclosed
  have hlength := depth?_closes hcloses hclosed
  exact ⟨List.length_eq_zero_iff.mp hnone, List.length_eq_zero_iff.mp (by omega)⟩

/-- The tokens under the span over two phrases. They are those of the phrases and of what is between if they are
balanced. -/
theorem Derives.exists_ends (hleft : Derives p us [left] rest) (hright : Derives q ws [right] rest')
    (hp : p.isValue = true) (hq : q.isValue = true) (hvs : Neutral vs) (hrow : Row (us ++ (vs ++ ws)))
    (hnamed : Named (us ++ (vs ++ ws))) (hs : s = ⟨left.span.start, right.span.stop⟩) :
    ∃ quoted, quoted <:+: us ++ (vs ++ ws) ∧ s.Ends quoted ∧ (balanced quoted = true → quoted = us ++ (vs ++ ws)) := by
  have hneutral := hleft.neutral (Phrase.isBare_of_isValue hp)
  have hneutral' := hright.neutral (Phrase.isBare_of_isValue hq)
  rw [named_append, named_append] at hnamed
  obtain ⟨_, opens, mid, closes, ⟨⟩, rfl, hflanks⟩ := hleft.flanked hp hrow.left
  obtain ⟨_, opens', mid', closes', ⟨⟩, rfl, hflanks'⟩ := hright.flanked hq hrow.right.right
  refine ⟨mid ++ ((closes ++ vs ++ opens') ++ mid'), ⟨opens, closes', by simp⟩,
    hs ▸ hflanks.ends.append hflanks'.ends _, fun hbalanced => ?_⟩
  have hws := hneutral' hnamed.2.2
  rw [← List.append_assoc] at hws
  obtain ⟨rfl, rfl⟩ := eq_nil_of_balanced (hneutral hnamed.1) (hvs hnamed.2.1) hws hflanks.before hflanks'.behind
    (by simpa using hbalanced)
  simp

end
end Bies
