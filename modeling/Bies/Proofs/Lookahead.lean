import Bies.Proofs.Parentheses
import Bies.Proofs.ParserRuns

/-!
# First tokens and next tokens

A phrase is known by its first token, but for a lambda, which the tokens up to its arrow tell from parentheses around
names. Of what follows, only the next token is looked at.
-/

namespace Bies

open Token Bies.Parser

/-! ## First tokens -/

/-- No expression begins with one of these. -/
def Token.strangers : List String := statementWords ++ [rightBrace, ")", "]"]

/-- What the phrase never begins with. -/
def Phrase.avoids : Phrase → List String
  | .declaration | .statement | .letIn | .conditional _ | .block => [rightBrace]
  | .name | .primary => "-" :: strangers
  | .parameters | .arguments | .expression | .lambda | .comparison | .sum | .product | .power | .unary => strangers
  | _ => []

theorem Derives.leads {p : Phrase} {us rest : List Token} {ts : List Tree} (h : Derives p us ts rest)
    (hnamed : Named us) (s : List Token) : Lacks p.avoids (us ++ s) := by
  induction h generalizing s with
  | @name u _ hkind htext =>
    intro w hw
    have hwords : ∀ w ∈ "-" :: strangers, w ∈ keywords ∨ w.toList.all isIdentifierPart = false := by
      decide +kernel
    rcases hwords w hw with hword | hword
    · exact Bool.eq_false_iff.mpr fun h => htext (eq_of_isSymbol h ▸ hword)
    · exact (hnamed u (by simp)).isSymbol_eq hkind hword
  | number hkind | string hkind => exact fun w _ => by simp [isSymbol, hkind]
  | letDeclaration hk | constDeclaration hk | letIn hk | function hk | ret hk | print hk | block hk | parameters hk
  | arguments hk | negative hk | listLiteral hk | parenthesized hk => exact lacks_of_isSymbol hk (by decide)
  | ifThen _ hk | ifElse _ hk | ifElseIf _ hk =>
    show Lacks [rightBrace] _
    exact lacks_of_isSymbol hk (by decide)
  | ofDeclaration _ _ ih | ofLetIn _ ih | ofConditional _ ih | ofBlock _ ih | ofExpression _ _ ih | ofLambda _ _ ih
  | ofComparison _ _ ih | ofSum _ _ ih | ofProduct _ _ ih | ofPower _ ih | ofUnary _ _ ih | ofPrimary _ _ ih
  | ofName _ _ ih => exact (ih hnamed s).sub (by decide)
  | lambdaBlock _ _ _ ih | lambdaValue _ _ _ _ ih | comparison _ _ _ _ ih | sum _ _ _ _ ih | product _ _ _ ih
  | power _ _ _ ih | call _ _ ih | access _ _ _ _ ih =>
    rw [List.append_assoc]
    exact (ih (named_append.mp hnamed).1 _).sub (by decide)
  | _ => exact List.forall_mem_nil _

theorem Derives.closes_eq_false {p : Phrase} {us rest : List Token} {ts : List Tree} {inside : Bool}
    (h : Derives p us ts rest) (hnamed : Named us) (hp : p.isList = false) (hbrace : rightBrace ∈ p.avoids)
    (s : List Token) : closes inside (us ++ s) = false := by
  have hlead := h.leads hnamed s rightBrace hbrace
  obtain ⟨u, us, rfl⟩ := List.exists_cons_of_ne_nil (h.ne_nil hp)
  cases inside with
  | false => rfl
  | true => exact hlead

theorem Derives.ofDeclaration_of_named {us rest : List Token} {ts : List Tree} (h : Derives .declaration us ts rest)
    (hnamed : Named us) : Derives .statement us ts rest := by
  refine .ofDeclaration h fun hlet => ?_
  cases h with
  | letDeclaration _ hname =>
    cases hname with
    | @name t _ hkind =>
      have hbrace : t.isSymbol leftBrace = false := (hnamed t (by simp)).isSymbol_eq hkind
      simpa [isSymbol, hkind] using hbrace
  | constDeclaration hk =>
    rw [List.cons_append, List.head?_cons, Option.any_some, isSymbol_of_isSymbol hk] at hlet
    cases hlet

/-! ## Lambdas and parentheses -/

section
variable {us rest : List Token}

/-- Balanced tokens are not where a list of parameters ends. -/
theorem endsParameters_of_append {k : Nat} (hk : depth? 0 us = some k) (hnamed : Named us)
    (h : endsParameters (us ++ rest) = true) : endsParameters rest = true := by
  induction us generalizing k with
  | nil => exact h
  | cons t us ih =>
    rw [named_cons] at hnamed
    rw [List.cons_append, endsParameters] at h
    rw [depth?] at hk
    split at hk
    next hopen =>
      obtain ⟨hkind, htext⟩ := hnamed.1.isPunct hopen
      simp [hkind, htext] at h
    next hopen =>
      split at hk
      · cases hk
      next hclose =>
        have hpunct : ¬(t.kind = .punct ∧ t.text = ")") := fun h => hclose (IsPunct.isSymbol h)
        rw [if_neg hpunct, Bool.and_eq_true] at h
        exact ih hk hnamed.2 h.2

end

/-- The phrases that do not begin with a list of parameters. -/
def Phrase.isOperand : Phrase → Bool
  | .name | .comparison | .sum | .product | .power | .unary | .primary => true
  | _ => false

theorem Derives.no_arrow {texts : List String} {us rest : List Token} {ts : List Tree}
    (h : Derives (.operator texts) us ts rest) (htexts : "=>" ∉ texts) (s : List Token) :
    (us ++ s).head?.any (·.text = "=>") = false := by
  cases h with
  | operator htext ht =>
    have hne : _ ≠ "=>" := fun he => htexts (he ▸ htext)
    simpa [eq_of_isSymbol ht] using hne

/-- An operand does not begin like a lambda, unless an arrow follows. -/
theorem Derives.startsLambda_eq_false {p : Phrase} {us rest s : List Token} {ts : List Tree} (h : Derives p us ts rest)
    (hp : p.isOperand = true) (hnamed : Named us) (hs : s.head?.any (·.text = "=>") = false) :
    startsLambda (us ++ s) = false := by
  induction h generalizing s with
  | @name t _ hkind =>
    have hopen : t.isSymbol "(" = false := (hnamed t (by simp)).isSymbol_eq hkind
    simp [Parser.startsLambda, hopen]
  | number hkind | string hkind => simp [Parser.startsLambda, isSymbol, hkind]
  | negative ho | listLiteral ho =>
    rw [List.cons_append, Parser.startsLambda, isSymbol_of_isSymbol ho]
    rfl
  | @parenthesized o c us _ _ ho h hc =>
    rw [named_cons, named_append] at hnamed
    rw [List.cons_append, Parser.startsLambda, ho, Bool.true_and, List.append_assoc, Bool.eq_false_iff]
    intro hends
    have hclose := endsParameters_of_append (h.neutral rfl hnamed.2.1 0) hnamed.2.1 hends
    obtain ⟨hkind, htext⟩ := (hnamed.2.2 c (by simp)).isPunct hc
    simp [endsParameters, hkind, htext, hs] at hclose
  | comparison _ hop _ _ ih | sum _ hop _ _ ih | product _ hop _ ih | power _ hop _ ih =>
    rw [List.append_assoc]
    refine ih rfl (named_append.mp hnamed).1 ?_
    rw [List.append_assoc]
    exact hop.no_arrow (by decide) _
  | call _ hargs ih =>
    rw [List.append_assoc]
    refine ih rfl (named_append.mp hnamed).1 ?_
    cases hargs with
    | arguments ho => simp [eq_of_isSymbol ho]
  | access _ ho _ _ ih =>
    rw [List.append_assoc]
    exact ih rfl (named_append.mp hnamed).1 (by simp [eq_of_isSymbol ho])
  | ofSum _ _ ih | ofProduct _ _ ih | ofPower _ ih | ofUnary _ _ ih | ofPrimary _ _ ih | ofName _ _ ih =>
    exact ih rfl hnamed hs
  | _ => cases hp

/-! ## What follows a phrase -/

section
variable {us xs rest rest' : List Token}

theorem exists_closing {depth k : Nat} (h : depth? depth us = some k) (hk : k < depth) :
    ∃ c ∈ us, c.isSymbol ")" = true := by
  fun_induction depth? depth us with
  | case1 => cases h; omega
  | case2 depth t us _ ih =>
    obtain ⟨c, hc, hclose⟩ := ih h (by omega)
    exact ⟨c, List.mem_cons_of_mem t hc, hclose⟩
  | case3 => cases h
  | case4 depth t us _ hclose => exact ⟨t, by simp, hclose⟩
  | case5 depth t us _ _ ih =>
    obtain ⟨c, hc, hclose⟩ := ih h hk
    exact ⟨c, List.mem_cons_of_mem t hc, hclose⟩

theorem endsParameters_eq {c : Token} (hc : c ∈ xs) (hclose : c.kind = .punct ∧ c.text = ")")
    (h : rest'.head? = rest.head?) : endsParameters (xs ++ rest') = endsParameters (xs ++ rest) := by
  induction xs with
  | nil => cases hc
  | cons t xs ih =>
    rw [List.cons_append, List.cons_append, endsParameters, endsParameters]
    split
    · rw [List.head?_append, List.head?_append, h]
    next ht =>
      rcases List.mem_cons.mp hc with rfl | hc
      · exact absurd hclose ht
      · rw [ih hc]

/-- Whether a phrase begins a lambda is told by its own tokens and the next one. -/
theorem startsLambda_eq (hneutral : Neutral us) (hnamed : Named us) (hne : us ≠ []) (h : rest'.head? = rest.head?) :
    startsLambda (us ++ rest') = startsLambda (us ++ rest) := by
  obtain ⟨o, xs, rfl⟩ := List.exists_cons_of_ne_nil hne
  rw [List.cons_append, List.cons_append, startsLambda, startsLambda]
  cases ho : o.isSymbol "(" with
  | false => rfl
  | true =>
    have hdepth := hneutral hnamed 0
    rw [depth?, if_pos ho] at hdepth
    obtain ⟨c, hc, hclose⟩ := exists_closing hdepth (by omega)
    rw [endsParameters_eq hc ((hnamed c (by simp [hc])).isPunct hclose) h]

end

/-- The phrases that may be followed by nothing at all. -/
def Phrase.isOpen : Phrase → Bool
  | .list .. | .sequence .. => false
  | .more p => p.isOpen
  | _ => true

/-- For the phrase, `rest'` follows as `rest` does: with the same token, or with none. -/
def Ahead (p : Phrase) (rest rest' : List Token) : Prop := rest'.head? = rest.head? ∨ rest' = [] ∧ p.isOpen = true

namespace Ahead

variable {p q : Phrase} {rest rest' : List Token}

theorem any {f : Token → Bool} (h : Ahead p rest rest') (hf : rest.head?.any f = false) :
    rest'.head?.any f = false := by
  rcases h with h | ⟨rfl, -⟩
  · rwa [h]
  · rfl

theorem head?_eq (h : Ahead p rest rest') (hp : p.isOpen = false) : rest'.head? = rest.head? :=
  h.resolve_right fun h => by simp [hp] at h

theorem same {us : List Token} (h : rest'.head? = rest.head?) : Ahead p (us ++ rest) (us ++ rest') :=
  .inl (by rw [List.head?_append, List.head?_append, h])

theorem append (h : Ahead p rest rest') (us : List Token) : Ahead p (us ++ rest) (us ++ rest') := by
  cases us with
  | nil => exact h
  | cons => exact .inl rfl

theorem lacks {texts : List String} (h : Ahead p rest rest') (hrest : Lacks texts rest) : Lacks texts rest' :=
  fun w hw => h.any (hrest w hw)

end Ahead

theorem Parser.closes_eq {inside : Bool} {s s' : List Token} (h : s'.head? = s.head?) :
    closes inside s' = closes inside s := by
  cases s <;> cases s' <;> cases h <;> rfl

theorem Derives.endsParameters_more {us rest s : List Token} {ts : List Tree} (h : Derives (.more .name) us ts rest)
    (hs : endsParameters s = true) : endsParameters (us ++ s) = true := by
  generalize hp : Phrase.more .name = p at h
  induction h with
  | noMore => exact hs
  | more hc ht _ _ ihts =>
    cases hp
    cases ht with
    | name hkind =>
      simp only [Token.isSymbol, Bool.and_eq_true, Bool.or_eq_true, beq_iff_eq] at hc
      simp [endsParameters, hc, hkind, ihts rfl, Or.comm.mp hc.1]
  | _ => cases hp

theorem Derives.startsLambda {a : Token} {us rest : List Token} {ts : List Tree} (h : Derives .parameters us ts rest)
    (hnamed : Named us) (ha : a.isSymbol "=>" = true) (s : List Token) : startsLambda (us ++ a :: s) = true := by
  cases h with
  | @parameters o c us _ _ ho hts hc =>
    obtain ⟨hkind, htext⟩ := (hnamed c (by simp)).isPunct hc
    have hends : endsParameters (c :: a :: s) = true := by simp [endsParameters, hkind, htext, eq_of_isSymbol ha]
    have hlist : endsParameters (us ++ c :: a :: s) = true := by
      cases hts with
      | noList => exact hends
      | list ht hts =>
        cases ht with
        | name hkind => simp [endsParameters, hkind, hts.endsParameters_more hends]
    simpa [Parser.startsLambda, ho] using hlist

theorem Derives.startsLambda_of_lambda {us rest : List Token} {ts : List Tree} (h : Derives .lambda us ts rest)
    (hnamed : Named us) (s : List Token) : Parser.startsLambda (us ++ s) = true := by
  cases h with
  | lambdaBlock hparams ha | lambdaValue hparams ha =>
    rw [List.append_assoc]
    exact hparams.startsLambda (named_append.mp hnamed).1 ha _

theorem Derives.exists_cons_cons {us rest : List Token} {ts : List Tree} (h : Derives .declaration us ts rest) :
    ∃ k x vs, us = k :: x :: vs := by
  cases h with
  | letDeclaration _ hname | constDeclaration _ hname =>
    cases hname
    exact ⟨_, _, _, rfl⟩

/-- A phrase is read as before if the same token follows or none. -/
theorem Derives.ahead {p : Phrase} {us rest rest' : List Token} {ts : List Tree} (h : Derives p us ts rest)
    (hnamed : Named us) (hrest : Ahead p rest rest') : Derives p us ts rest' := by
  induction h generalizing rest' with
    try simp only [named_cons, named_append] at hnamed
  | name hkind htext => exact .name hkind htext
  | operator htext ht => exact .operator htext ht
  | noList h => exact .noList (hrest.head?_eq rfl ▸ h)
  | list _ _ h iht ihts =>
    have hhead := hrest.head?_eq rfl
    exact .list (iht hnamed.1 (.same hhead)) (ihts hnamed.2 (.inl hhead)) ((hrest.append _).any h)
  | noMore h => exact .noMore (hrest.any h)
  | more hc _ _ iht ihts => exact .more hc (iht hnamed.2.1 (hrest.append _)) (ihts hnamed.2.2 hrest)
  | noSequence h => exact .noSequence (closes_eq (hrest.head?_eq rfl) ▸ h)
  | sequence _ _ h hend iht ihts =>
    have hhead := hrest.head?_eq rfl
    exact .sequence (iht hnamed.1 (.same hhead)) (ihts hnamed.2 hrest)
      (closes_eq ((hrest.append _).head?_eq rfl) ▸ h) ((hrest.append _).any hend)
  | semicolon _ hc _ h iht ihts =>
    exact .semicolon (iht hnamed.1 (.inl rfl)) hc (ihts hnamed.2.2 hrest)
      (closes_eq ((hrest.append _).head?_eq rfl) ▸ h)
  | parameters ho _ hc ih => exact .parameters ho (ih hnamed.2.1 (.inl rfl)) hc
  | arguments ho _ hc ih => exact .arguments ho (ih hnamed.2.1 (.inl rfl)) hc
  | letDeclaration hk _ he _ ihname ihvalue =>
    exact .letDeclaration hk (ihname hnamed.2.1 (.inl rfl)) he (ihvalue hnamed.2.2.2 hrest)
  | constDeclaration hk _ he _ ihname ihvalue =>
    exact .constDeclaration hk (ihname hnamed.2.1 (.inl rfl)) he (ihvalue hnamed.2.2.2 hrest)
  | ofDeclaration h hlet ih =>
    obtain ⟨k, x, vs, rfl⟩ := h.exists_cons_cons
    exact .ofDeclaration (ih hnamed hrest) hlet
  | letIn hk ho _ hc hi _ ihds ihbody =>
    exact .letIn hk ho (ihds hnamed.2.2.1 (.inl rfl)) hc hi (ihbody hnamed.2.2.2.2.2 hrest)
  | ofLetIn _ ih => exact .ofLetIn (ih hnamed hrest)
  | function hk _ _ _ ihname ihparams ihbody =>
    exact .function hk (ihname hnamed.2.1 (hrest.append _)) (ihparams hnamed.2.2.1 (hrest.append _))
      (ihbody hnamed.2.2.2 hrest)
  | ofConditional _ ih => exact .ofConditional (ih hnamed hrest)
  | ret hk _ ih => exact .ret hk (ih hnamed.2 hrest)
  | print hk _ ih => exact .print hk (ih hnamed.2 hrest)
  | ofBlock _ ih => exact .ofBlock (ih hnamed hrest)
  | ofExpression _ hlead ih => exact .ofExpression (ih hnamed hrest) ((hrest.append _).lacks hlead)
  | ifThen hkind hk ho _ hc _ hend ihtest ihbody =>
    exact .ifThen hkind hk ho (ihtest hnamed.2.2.1 (.inl rfl)) hc (ihbody hnamed.2.2.2.2 hrest) (hrest.any hend)
  | ifElse hkind hk ho _ hc _ he _ ihtest ihbody ihother =>
    exact .ifElse hkind hk ho (ihtest hnamed.2.2.1 (.inl rfl)) hc (ihbody hnamed.2.2.2.2.1 (.inl rfl)) he
      (ihother hnamed.2.2.2.2.2.2 hrest)
  | ifElseIf hkind hk ho _ hc _ he _ ihtest ihbody ihlink =>
    exact .ifElseIf hkind hk ho (ihtest hnamed.2.2.1 (.inl rfl)) hc (ihbody hnamed.2.2.2.2.1 (.inl rfl)) he
      (ihlink hnamed.2.2.2.2.2.2 hrest)
  | block ho _ hc ih => exact .block ho (ih hnamed.2.1 (.inl rfl)) hc
  | lambdaBlock _ ha _ ihparams ihbody =>
    exact .lambdaBlock (ihparams hnamed.1 (.inl rfl)) ha (ihbody hnamed.2.2 hrest)
  | lambdaValue _ ha _ hopen ihparams ihvalue =>
    exact .lambdaValue (ihparams hnamed.1 (.inl rfl)) ha (ihvalue hnamed.2.2 hrest) ((hrest.append _).any hopen)
  | ofLambda h _ ih => exact .ofLambda (ih hnamed hrest) (h.startsLambda_of_lambda hnamed _)
  | ofComparison h hlead ih =>
    refine .ofComparison (ih hnamed hrest) ?_
    rcases hrest with hrest | ⟨rfl, -⟩
    · rwa [startsLambda_eq (h.neutral rfl) hnamed (h.ne_nil rfl) hrest]
    · exact h.startsLambda_eq_false rfl hnamed rfl
  | comparison _ _ _ hend ihleft ihop ihright =>
    exact .comparison (ihleft hnamed.1 (hrest.append _)) (ihop hnamed.2.1 (hrest.append _))
      (ihright hnamed.2.2 hrest) (hrest.lacks hend)
  | ofSum _ hend ih => exact .ofSum (ih hnamed hrest) (hrest.lacks hend)
  | sum _ _ _ hend ihleft ihop ihright =>
    exact .sum (ihleft hnamed.1 (hrest.append _)) (ihop hnamed.2.1 (hrest.append _)) (ihright hnamed.2.2 hrest)
      (hrest.lacks hend)
  | ofProduct _ hend ih => exact .ofProduct (ih hnamed hrest) (hrest.lacks hend)
  | product _ _ _ ihleft ihop ihright =>
    exact .product (ihleft hnamed.1 (hrest.append _)) (ihop hnamed.2.1 (hrest.append _)) (ihright hnamed.2.2 hrest)
  | ofPower _ ih => exact .ofPower (ih hnamed hrest)
  | power _ _ _ ihbase ihop ihexponent =>
    exact .power (ihbase hnamed.1 (hrest.append _)) (ihop hnamed.2.1 (hrest.append _)) (ihexponent hnamed.2.2 hrest)
  | ofUnary _ hend ih => exact .ofUnary (ih hnamed hrest) (hrest.any hend)
  | negative hm hkind => exact .negative hm hkind
  | ofPrimary _ hlead ih => exact .ofPrimary (ih hnamed hrest) ((hrest.append _).any hlead)
  | number hkind => exact .number hkind
  | string hkind hclosed => exact .string hkind hclosed
  | ofName _ hend ih => exact .ofName (ih hnamed hrest) (hrest.lacks hend)
  | call _ _ ihname ihargs => exact .call (ihname hnamed.1 (hrest.append _)) (ihargs hnamed.2 hrest)
  | access _ ho _ hc ihname ihindex =>
    exact .access (ihname hnamed.1 (.inl rfl)) ho (ihindex hnamed.2.2.1 (.inl rfl)) hc
  | listLiteral ho _ hc hkind ih => exact .listLiteral ho (ih hnamed.2.1 (.inl rfl)) hc hkind
  | parenthesized ho _ hc hkind ih => exact .parenthesized ho (ih hnamed.2.1 (.inl rfl)) hc hkind
end Bies
