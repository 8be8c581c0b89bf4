import Bies.Proofs.TokenText
import Bies.Tree.Parse

/-!
# The grammar of parsed trees

`Derives p us ts rest`: before the tokens `rest`, the tokens `us` read as the phrase `p`, with the trees `ts`.
Every parser takes tokens off the front, each once and in order, and gives the trees of a derivation for what it
took: `Takes x R` says that `R` holds of the tokens that `x` takes, of its result and of the tokens it leaves.
-/

namespace Bies

inductive Phrase where
  | name
  /-- One of the operators. -/
  | operator (texts : List String)
  /-- Phrases with commas between them, or nothing before the closing symbol. -/
  | list (item : Phrase) (close : String)
  /-- A comma and a phrase, as often as they stand there. -/
  | more (item : Phrase)
  /-- Phrases one after another, each with its semicolon, if there is one; up to a brace or to the end. -/
  | sequence (item : Phrase) (inside : Bool)
  | parameters
  | arguments
  | declaration
  | statement
  | letIn
  | conditional (kind : Tree.Kind)
  | block
  | expression
  | lambda
  | comparison
  | sum
  | product
  | power
  | unary
  | primary

/-- The next token is none of the symbols. -/
def Lacks (texts : List String) (s : List Token) : Prop := ∀ w ∈ texts, s.head?.any (·.isSymbol w) = false

theorem Lacks.sub {texts others : List String} {s : List Token} (h : Lacks texts s) (hsub : others ⊆ texts) :
    Lacks others s :=
  fun w hw => h w (hsub hw)

def Token.statementWords : List String := ["let", "const", "fun", "if", "return", "print", leftBrace]

/-- A sequence ends before these tokens. -/
def Parser.closes (inside : Bool) (s : List Token) : Bool :=
  if inside then s.head?.any (·.isSymbol rightBrace) else s.isEmpty

-- What is asked of `rest` keeps the parsers from going on. What is asked of `us ++ rest` tells the phrase from others.
open Bies.Parser in
inductive Derives : Phrase → List Token → List Tree → List Token → Prop
  | name {t rest} (hkind : t.kind = .identifier) (htext : t.text ∉ Token.keywords) :
    Derives .name [t] [.leaf .identifier t.span] rest
  | operator {texts text t rest} (htext : text ∈ texts)
    (ht : t.isSymbol text = true) : Derives (.operator texts) [t] [.leaf .operator t.span] rest
  | noList {p close rest} (h : rest.head?.any (·.isSymbol close) = true) :
    Derives (.list p close) [] [] rest
  | list {p close us vs rest t ts}
    (ht : Derives p us [t] (vs ++ rest))
    (hts : Derives (.more p) vs ts rest) (h : (us ++ vs ++ rest).head?.any (·.isSymbol close) = false) :
    Derives (.list p close) (us ++ vs) (t :: ts) rest
  | noMore {p rest} (h : rest.head?.any (·.isSymbol ",") = false) : Derives (.more p) [] [] rest
  | more {p c us vs rest t ts} (hc : c.isSymbol "," = true)
    (ht : Derives p us [t] (vs ++ rest)) (hts : Derives (.more p) vs ts rest) :
    Derives (.more p) (c :: (us ++ vs)) (t :: ts) rest
  | noSequence {p inside rest} (h : closes inside rest = true) :
    Derives (.sequence p inside) [] [] rest
  | sequence {p inside us vs rest t ts}
    (ht : Derives p us [t] (vs ++ rest))
    (hts : Derives (.sequence p inside) vs ts rest) (h : closes inside (us ++ vs ++ rest) = false)
    (hend : (vs ++ rest).head?.any (·.isSymbol ";") = false) : Derives (.sequence p inside) (us ++ vs) (t :: ts) rest
  | semicolon {p inside us vs rest c t ts}
    (ht : Derives p us [t] (c :: (vs ++ rest))) (hc : c.isSymbol ";" = true)
    (hts : Derives (.sequence p inside) vs ts rest)
    (h : closes inside (us ++ c :: vs ++ rest) = false) : Derives (.sequence p inside) (us ++ c :: vs) (t :: ts) rest
  | parameters {o c us rest ts} (ho : o.isSymbol "(" = true)
    (hts : Derives (.list .name ")") us ts (c :: rest)) (hc : c.isSymbol ")" = true) :
    Derives .parameters (o :: (us ++ [c])) [.node .parameterList (o.span.join c.span) ts] rest
  | arguments {o c us rest ts} (ho : o.isSymbol "(" = true)
    (hts : Derives (.list .expression ")") us ts (c :: rest)) (hc : c.isSymbol ")" = true) :
    Derives .arguments (o :: (us ++ [c])) [.node .argumentList (o.span.join c.span) ts] rest
  -- declarations and statements
  | letDeclaration {k e us vs rest name value} (hk : k.isSymbol "let" = true)
    (hname : Derives .name us [name] (e :: (vs ++ rest))) (he : e.isSymbol "=" = true)
    (hvalue : Derives .expression vs [value] rest) :
    Derives .declaration (k :: (us ++ e :: vs)) [.node .letDeclaration (k.span.join value.span) [name, value]] rest
  | constDeclaration {k e us vs rest name value} (hk : k.isSymbol "const" = true)
    (hname : Derives .name us [name] (e :: (vs ++ rest))) (he : e.isSymbol "=" = true)
    (hvalue : Derives .expression vs [value] rest) :
    Derives .declaration (k :: (us ++ e :: vs)) [.node .constDeclaration (k.span.join value.span) [name, value]] rest
  | ofDeclaration {us rest ts} (h : Derives .declaration us ts rest)
    (hlet : (us ++ rest).head?.any (·.isSymbol "let") = true → (us ++ rest).tail.head?.any
      (·.text = leftBrace) = false) :
    Derives .statement us ts rest
  | letIn {k o c i us vs rest ds body} (hk : k.isSymbol "let" = true)
    (ho : o.isSymbol leftBrace = true) (hds : Derives (.sequence .declaration true) us ds (c :: i :: (vs ++ rest)))
    (hc : c.isSymbol rightBrace = true) (hi : i.isSymbol "in" = true) (hbody : Derives .block vs [body] rest) :
    Derives .letIn (k :: o :: (us ++ c :: i :: vs)) [.node .letIn (k.span.join body.span) (ds ++ [body])] rest
  | ofLetIn {us rest ts} (h : Derives .letIn us ts rest) : Derives .statement us ts rest
  | function {k us vs ws rest name params body} (hk : k.isSymbol "fun" = true)
    (hname : Derives .name us [name] (vs ++ ws ++ rest)) (hparams : Derives .parameters vs [params] (ws ++ rest))
    (hbody : Derives .block ws [body] rest) :
    Derives .statement (k :: (us ++ (vs ++ ws)))
      [.node .functionDeclaration (k.span.join body.span) [name, params, body]] rest
  | ofConditional {us rest ts} (h : Derives (.conditional .ifStatement) us ts rest) :
    Derives .statement us ts rest
  | ret {k us rest value} (hk : k.isSymbol "return" = true)
    (hvalue : Derives .expression us [value] rest) :
    Derives .statement (k :: us) [.node .returnStatement (k.span.join value.span) [value]] rest
  | print {k us rest args} (hk : k.isSymbol "print" = true)
    (hargs : Derives .arguments us [args] rest) :
    Derives .statement (k :: us) [.node .printStatement (k.span.join args.span) [args]] rest
  | ofBlock {us rest ts} (h : Derives .block us ts rest) : Derives .statement us ts rest
  | ofExpression {us rest value} (h : Derives .expression us [value] rest)
    (hlead : Lacks Token.statementWords (us ++ rest)) :
    Derives .statement us [.covering .expressionStatement [value]] rest
  | ifThen {kind k o c us vs rest test body}
    (hkind : kind = .ifStatement ∨ kind = .elseIf) (hk : k.isSymbol "if" = true) (ho : o.isSymbol "(" = true)
    (htest : Derives .expression us [test] (c :: (vs ++ rest))) (hc : c.isSymbol ")" = true)
    (hbody : Derives .block vs [body] rest) (hend : rest.head?.any (·.isSymbol "else") = false) :
    Derives (.conditional kind) (k :: o :: (us ++ c :: vs)) [.node kind (k.span.join body.span) [test, body]] rest
  | ifElse {kind k o c e us vs ws rest test body other}
    (hkind : kind = .ifStatement ∨ kind = .elseIf) (hk : k.isSymbol "if" = true) (ho : o.isSymbol "(" = true)
    (htest : Derives .expression us [test] (c :: (vs ++ e :: ws ++ rest))) (hc : c.isSymbol ")" = true)
    (hbody : Derives .block vs [body] (e :: (ws ++ rest))) (he : e.isSymbol "else" = true)
    (hother : Derives .block ws [other] rest) :
    Derives (.conditional kind) (k :: o :: (us ++ c :: (vs ++ e :: ws)))
      [.node kind ((k.span.join body.span).join (e.span.join other.span))
        [test, body, .node .elseStatement (e.span.join other.span) [other]]] rest
  | ifElseIf {kind k o c e us vs ws rest test body link}
    (hkind : kind = .ifStatement ∨ kind = .elseIf) (hk : k.isSymbol "if" = true) (ho : o.isSymbol "(" = true)
    (htest : Derives .expression us [test] (c :: (vs ++ e :: ws ++ rest))) (hc : c.isSymbol ")" = true)
    (hbody : Derives .block vs [body] (e :: (ws ++ rest))) (he : e.isSymbol "else" = true)
    (hlink : Derives (.conditional .elseIf) ws [link] rest) :
    Derives (.conditional kind) (k :: o :: (us ++ c :: (vs ++ e :: ws)))
      [.node kind ((k.span.join body.span).join link.span) [test, body, link]] rest
  | block {o c us rest ts} (ho : o.isSymbol leftBrace = true)
    (hts : Derives (.sequence .statement true) us ts (c :: rest)) (hc : c.isSymbol rightBrace = true) :
    Derives .block (o :: (us ++ [c])) [.node .block (o.span.join c.span) ts] rest
  -- expressions, from the loosest operator
  | lambdaBlock {a us vs rest params body}
    (hparams : Derives .parameters us [params] (a :: (vs ++ rest))) (ha : a.isSymbol "=>" = true)
    (hbody : Derives .block vs [body] rest) :
    Derives .lambda (us ++ a :: vs) [.node .lambda (params.span.join body.span) [params, body]] rest
  | lambdaValue {a us vs rest params value}
    (hparams : Derives .parameters us [params] (a :: (vs ++ rest))) (ha : a.isSymbol "=>" = true)
    (hvalue : Derives .expression vs [value] rest) (hopen : (vs ++ rest).head?.any (·.isSymbol leftBrace) = false) :
    Derives .lambda (us ++ a :: vs) [.node .lambda (params.span.join value.span) [params, value]] rest
  | ofLambda {us rest ts} (h : Derives .lambda us ts rest)
    (hlead : startsLambda (us ++ rest) = true) : Derives .expression us ts rest
  | ofComparison {us rest ts} (h : Derives .comparison us ts rest)
    (hlead : startsLambda (us ++ rest) = false) : Derives .expression us ts rest
  | comparison {us vs ws rest left op right} (hleft : Derives .sum us [left] (vs ++ ws ++ rest))
    (hop : Derives (.operator comparisonOperators) vs [op] (ws ++ rest)) (hright : Derives .sum ws [right] rest)
    (hend : Lacks additiveOperators rest) :
    Derives .comparison (us ++ (vs ++ ws)) [.covering .comparison [left, op, right]] rest
  | ofSum {us rest ts} (h : Derives .sum us ts rest)
    (hend : Lacks (additiveOperators ++ comparisonOperators) rest) : Derives .comparison us ts rest
  | sum {us vs ws rest left op right} (hleft : Derives .sum us [left] (vs ++ ws ++ rest))
    (hop : Derives (.operator additiveOperators) vs [op] (ws ++ rest)) (hright : Derives .product ws [right] rest)
    (hend : Lacks multiplicativeOperators rest) :
    Derives .sum (us ++ (vs ++ ws)) [.covering .arithmetic [left, op, right]] rest
  | ofProduct {us rest ts} (h : Derives .product us ts rest)
    (hend : Lacks multiplicativeOperators rest) : Derives .sum us ts rest
  | product {us vs ws rest left op right} (hleft : Derives .product us [left] (vs ++ ws ++ rest))
    (hop : Derives (.operator multiplicativeOperators) vs [op] (ws ++ rest)) (hright : Derives .power ws [right] rest) :
    Derives .product (us ++ (vs ++ ws)) [.covering .arithmetic [left, op, right]] rest
  | ofPower {us rest ts} (h : Derives .power us ts rest) : Derives .product us ts rest
  | power {us vs ws rest base op exponent} (hbase : Derives .unary us [base] (vs ++ ws ++ rest))
    (hop : Derives (.operator ["**"]) vs [op] (ws ++ rest)) (hexponent : Derives .power ws [exponent] rest) :
    Derives .power (us ++ (vs ++ ws)) [.covering .arithmetic [base, op, exponent]] rest
  | ofUnary {us rest ts} (h : Derives .unary us ts rest)
    (hend : rest.head?.any (·.isSymbol "**") = false) : Derives .power us ts rest
  | negative {m t rest} (hm : m.isSymbol "-" = true) (hkind : t.kind = .number) :
    Derives .unary [m, t] [.leaf (numberKind t) (m.span.join t.span)] rest
  | ofPrimary {us rest ts} (h : Derives .primary us ts rest)
    (hlead : (us ++ rest).head?.any (·.isSymbol "-") = false) : Derives .unary us ts rest
  | number {t rest} (hkind : t.kind = .number) :
    Derives .primary [t] [.leaf (numberKind t) t.span] rest
  | string {t rest} (hkind : t.kind = .string)
    (hclosed : isTerminatedString t.text.toList = true) :
    Derives .primary [t] [.leaf .string t.span] rest
  | ofName {us rest ts} (h : Derives .name us ts rest) (hend : Lacks ["(", "["] rest) :
    Derives .primary us ts rest
  | call {us vs rest name args} (hname : Derives .name us [name] (vs ++ rest))
    (hargs : Derives .arguments vs [args] rest) : Derives .primary (us ++ vs) [.covering .call [name, args]] rest
  | access {o c us vs rest name index}
    (hname : Derives .name us [name] (o :: (vs ++ [c] ++ rest)))
    (ho : o.isSymbol "[" = true) (hindex : Derives .expression vs [index] (c :: rest)) (hc : c.isSymbol "]" = true) :
    Derives .primary (us ++ o :: (vs ++ [c])) [.node .listAccess (name.span.join c.span) [name, index]] rest
  | listLiteral {o c us rest ts} (ho : o.isSymbol "[" = true)
    (hts : Derives (.list .expression "]") us ts (c :: rest)) (hc : c.isSymbol "]" = true) (hkind : o.kind = .punct) :
    Derives .primary (o :: (us ++ [c])) [.node .listLiteral (o.span.join c.span) ts] rest
  | parenthesized {o c us rest t} (ho : o.isSymbol "(" = true)
    (h : Derives .expression us [t] (c :: rest)) (hc : c.isSymbol ")" = true) (hkind : o.kind = .punct) :
    Derives .primary (o :: (us ++ [c])) [t] rest

namespace Parser

def TakesFrom {α : Type} (tokens : List Token) (x : Parser α) (R : List Token → α → List Token → Prop) : Prop :=
  ∀ a rest, x.run tokens = .ok (a, rest) → ∃ used, tokens = used ++ rest ∧ R used a rest

def Takes {α : Type} (x : Parser α) (R : List Token → α → List Token → Prop) : Prop :=
  ∀ tokens, TakesFrom tokens x R

namespace Takes

variable {α β : Type} {x : Parser α} {k : α → Parser β} {R : List Token → α → List Token → Prop}
  {T : List Token → β → List Token → Prop}

-- What `x` leaves is known only when `k` is done, so what is known of `x` is handed on as a premise.
theorem bind (hx : Takes x R) (hk : ∀ us a, Takes (k a) fun vs b rest => R us a (vs ++ rest) → T (us ++ vs) b rest) :
    Takes (x >>= k) T := by
  intro tokens b rest h
  rw [StateT.run_bind] at h
  cases hrun : x.run tokens with
  | error e => rw [hrun] at h; cases h
  | ok p =>
    rw [hrun] at h
    obtain ⟨us, hus, hR⟩ := hx tokens p.1 p.2 hrun
    obtain ⟨vs, hvs, hT⟩ := hk us p.1 p.2 b rest h
    exact ⟨us ++ vs, by rw [hus, hvs, List.append_assoc], hT (hvs ▸ hR)⟩

theorem ret {a : α} (h : ∀ rest, R [] a rest) : Takes (pure a) R := by
  intro tokens b rest hrun
  cases hrun
  exact ⟨[], rfl, h _⟩

theorem fail (stop : Finish) (what : Expectation) : Takes (Parser.fail stop what) R := by
  intro tokens a rest hrun
  cases tokens <;> cases hrun

theorem raise (e : ParseError) : Takes (throw e) R := by
  intro tokens a rest hrun
  cases hrun

theorem imp {S : List Token → α → List Token → Prop} (hx : Takes x R)
    (h : ∀ us a rest, R us a rest → S us a rest) : Takes x S := by
  intro tokens a rest hrun
  obtain ⟨us, hus, hR⟩ := hx tokens a rest hrun
  exact ⟨us, hus, h us a rest hR⟩

theorem peek {k : List Token → Parser β}
    (h : ∀ tokens, Takes (k tokens) fun us b rest => us ++ rest = tokens → T us b rest) : Takes (get >>= k) T := by
  intro tokens b rest hrun
  obtain ⟨us, hus, hT⟩ := h tokens tokens b rest hrun
  exact ⟨us, hus, hT hus.symm⟩

theorem next {k : List Token → Parser β} (hnil : Takes (k []) T)
    (hcons : ∀ t tail, TakesFrom (t :: tail) (k (t :: tail)) T) : Takes (get >>= k) T := by
  intro tokens
  cases tokens with
  | nil => exact hnil []
  | cons t tail => exact hcons t tail

end Takes

namespace TakesFrom

variable {α : Type} {t : Token} {tokens tail : List Token} {R : List Token → α → List Token → Prop}

theorem of {x : Parser α} (h : Takes x R) : TakesFrom tokens x R := h tokens

theorem rest {k : PUnit → Parser α} (hk : Takes (k ()) fun vs a rest => R (t :: vs) a rest) :
    TakesFrom (t :: tail) (set tail >>= k) R := by
  intro a rest hrun
  obtain ⟨vs, hvs, hR⟩ := hk tail a rest hrun
  exact ⟨t :: vs, by rw [hvs, List.cons_append], hR⟩

end TakesFrom

namespace Takes

variable {α β : Type} {stop : Finish} {text : String} {T : List Token → β → List Token → Prop}

theorem last {x : Parser α} {R : List Token → α → List Token → Prop} {f : α → β} (hx : Takes x R)
    (h : ∀ us a rest, R us a rest → T us (f a) rest) : Takes (x >>= fun a => pure (f a)) T := by
  refine .bind hx fun us a => .ret fun rest ha => ?_
  rw [List.append_nil]
  exact h us a rest ha

theorem sees {k : Bool → Parser β}
    (hk : ∀ seen, Takes (k seen) fun us b rest => (us ++ rest).head?.any (·.isSymbol text) = seen → T us b rest) :
    Takes (Parser.sees text >>= k) T :=
  .peek fun tokens => (hk _).imp fun _ _ _ h htokens => h (by rw [htokens])

theorem accept? {k : Option Token → Parser β}
    (hnone : Takes (k none) fun us b rest => (us ++ rest).head?.any (·.isSymbol text) = false → T us b rest)
    (hsome : ∀ t, t.isSymbol text = true → Takes (k (some t)) fun vs b rest => T (t :: vs) b rest) :
    Takes (Parser.accept? text >>= k) T := by
  intro tokens
  cases tokens with
  | nil =>
    intro b rest h
    obtain ⟨us, hus, hT⟩ := hnone [] b rest h
    exact ⟨us, hus, hT (by rw [← hus]; rfl)⟩
  | cons t tail =>
    by_cases ht : t.isSymbol text = true
    · have hrun : (Parser.accept? text).run (t :: tail) = .ok (some t, tail) := by
        show (if t.isSymbol text = true then _ else _ : Parser (Option Token)) (t :: tail) = _
        rw [if_pos ht]
        rfl
      intro b rest h
      rw [StateT.run_bind, hrun] at h
      obtain ⟨vs, hvs, hT⟩ := hsome t ht tail b rest h
      exact ⟨t :: vs, by rw [hvs, List.cons_append], hT⟩
    · have hrun : (Parser.accept? text).run (t :: tail) = .ok (none, t :: tail) := by
        show (if t.isSymbol text = true then _ else _ : Parser (Option Token)) (t :: tail) = _
        rw [if_neg ht]
        rfl
      intro b rest h
      rw [StateT.run_bind, hrun] at h
      obtain ⟨us, hus, hT⟩ := hnone (t :: tail) b rest h
      exact ⟨us, hus, hT (by rw [← hus]; exact eq_false_of_ne_true ht)⟩

theorem accept {k : Token → Parser β}
    (hk : ∀ t, t.isSymbol text = true → Takes (k t) fun vs b rest => T (t :: vs) b rest) :
    Takes (Parser.accept stop text >>= k) T := by
  unfold Parser.accept
  rw [bind_assoc]
  refine .accept? (fun tokens b rest h => ?_) fun t ht => ?_
  · cases tokens <;> cases h
  · exact hk t ht

theorem operation {p : Token → Bool} {texts : List String} {k : Tree → Parser β} {e : Parser β}
    (hp : ∀ t, p t = true ↔ ∃ text ∈ texts, t.isSymbol text = true)
    (hk : ∀ us op, (∀ rest, Derives (.operator texts) us [op] rest) →
      Takes (k op) fun vs b rest => T (us ++ vs) b rest)
    (he : Takes e fun us b rest => Lacks texts (us ++ rest) → T us b rest) :
    Takes ((do return (← get).head?.any p) >>= fun seen => if seen = true then operator stop >>= k else e) T := by
  intro tokens
  cases tokens with
  | nil =>
    intro b rest h
    obtain ⟨us, hus, hT⟩ := he [] b rest h
    exact ⟨us, hus, hT (by rw [← hus]; exact fun _ _ => rfl)⟩
  | cons t tail =>
    show TakesFrom (t :: tail) (if p t = true then operator stop >>= k else e) T
    by_cases ht : p t = true
    · obtain ⟨text, htext, hsymbol⟩ := (hp t).mp ht
      rw [if_pos ht]
      show TakesFrom (t :: tail) (set tail >>= fun _ => k (.leaf .operator t.span)) T
      exact .rest (hk [t] _ fun _ => .operator htext hsymbol)
    · rw [if_neg ht]
      intro b rest h
      obtain ⟨us, hus, hT⟩ := he (t :: tail) b rest h
      refine ⟨us, hus, hT ?_⟩
      rw [← hus]
      exact fun w hw => eq_false_of_ne_true fun hsymbol => ht ((hp t).mpr ⟨w, hw, hsymbol⟩)

end Takes

def Ended (p : Phrase) (us : List Token) (t : Tree) (rest : List Token) : Prop :=
  (Derives p us [t] rest ∧ rest.head?.any (·.isSymbol ";") = false) ∨
    ∃ vs c, Derives p vs [t] (c :: rest) ∧ c.isSymbol ";" = true ∧ us = vs ++ [c]

theorem Ended.cons {p : Phrase} {inside : Bool} {us vs rest : List Token} {t : Tree} {ts : List Tree}
    (h : Ended p us t (vs ++ rest)) (hts : Derives (.sequence p inside) vs ts rest)
    (hopen : closes inside (us ++ vs ++ rest) = false) : Derives (.sequence p inside) (us ++ vs) (t :: ts) rest := by
  rcases h with ⟨h, hend⟩ | ⟨us, c, h, hc, rfl⟩
  · exact .sequence h hts hopen hend
  · rw [List.append_assoc us] at hopen ⊢
    exact .semicolon h hc hts hopen

theorem takes_semicolon {p : Phrase} {us : List Token} {tree : Tree} :
    Takes (do let _ ← accept? ";"; return tree) fun vs t rest =>
      Derives p us [tree] (vs ++ rest) → Ended p (us ++ vs) t rest := by
  refine .accept? (.ret fun rest hend h => ?_) fun c hc => .ret fun rest h => ?_
  · rw [List.append_nil]
    exact .inl ⟨h, hend⟩
  · exact .inr ⟨us, c, h, hc, rfl⟩

variable (stop : Finish)

theorem takes_identifier (what : Expectation) :
    Takes (identifier stop what) fun us t _ => ∀ rest, Derives .name us [t] rest := by
  unfold identifier
  refine .next (.fail stop _) fun t tail => ?_
  dsimp only
  split
  next h => exact .rest (.ret fun _ _ => .name h.1 h.2)
  next => exact .of (.fail stop what)

theorem takes_moreParameters : ∀ n, Takes (moreParameters stop n) (Derives (.more .name))
  | 0 => by
    unfold moreParameters
    exact .raise _
  | n + 1 => by
    unfold moreParameters
    refine .accept? (.ret fun _ => .noMore) fun c hc => ?_
    exact .bind (takes_identifier stop _) fun us name => .last (takes_moreParameters n) fun vs more rest hmore hname =>
      .more hc (hname _) hmore

theorem takes_parameterList (n : Nat) :
    Takes (parameterList stop n) fun us t rest => Derives .parameters us [t] rest := by
  unfold parameterList
  refine .accept fun o ho => .sees fun seen => ?_
  dsimp only
  split
  next hseen =>
    rw [pure_bind]
    exact .accept fun c hc => .ret fun rest _ => .parameters ho (.noList hc) hc
  next hseen =>
    refine .bind (takes_identifier stop _) fun us name => .bind (takes_moreParameters stop n) fun vs more => ?_
    rw [pure_bind]
    refine .accept fun c hc => .ret fun rest hmore hname hfirst => ?_
    rw [← List.append_assoc] at hfirst ⊢
    rw [List.append_assoc] at hfirst
    exact .parameters ho (.list (hname _) hmore (hfirst.trans (eq_false_of_ne_true hseen))) hc

mutual

theorem takes_statement : ∀ n, Takes (statement stop n) (Ended .statement)
  | 0 => by
    unfold statement
    exact .raise _
  | n + 1 => by
    unfold statement
    dsimp only
    refine .sees fun isLet => .sees fun isConst => .sees fun isFun => .sees fun isIf => .sees fun isReturn =>
      .sees fun isPrint => .sees fun isBlock => ?_
    split
    · refine .peek fun tokens => ?_
      split
      · exact .bind (takes_letIn n) fun us t => takes_semicolon.imp fun _ _ _ h ht _ _ _ _ _ _ _ _ => h (.ofLetIn ht)
      next hbrace =>
        refine .bind (takes_declaration .letDeclaration n) fun us t =>
          takes_semicolon.imp fun vs t rest h ht htokens _ _ _ _ _ _ _ => h (.ofDeclaration ht fun _ => ?_)
        rw [← List.append_assoc, htokens]
        exact eq_false_of_ne_true hbrace
    next hlet =>
    split
    · refine .bind (takes_declaration .constDeclaration n) fun us t =>
        takes_semicolon.imp fun vs t rest h ht _ _ _ _ _ _ hseen => h (.ofDeclaration ht fun hfirst => absurd ?_ hlet)
      rw [← hseen, List.append_assoc]
      exact hfirst
    next hconst =>
    split
    · exact .bind (takes_functionDeclaration n) fun us t => takes_semicolon.imp fun _ _ _ h ht _ _ _ _ _ _ _ => h ht
    next hfun =>
    split
    · exact .bind (takes_ifStatement (.inl rfl) n) fun us t => takes_semicolon.imp fun _ _ _ h ht _ _ _ _ _ _ _ =>
        h (.ofConditional ht)
    next hif =>
    split
    · refine .accept fun k hk => .bind (takes_expression n) fun us value => ?_
      rw [pure_bind]
      exact takes_semicolon.imp fun _ _ _ h ht _ _ _ _ _ _ _ => h (.ret hk ht)
    next hreturn =>
    split
    · refine .accept fun k hk => .bind (takes_argumentList n) fun us args => ?_
      rw [pure_bind]
      exact takes_semicolon.imp fun _ _ _ h ht _ _ _ _ _ _ _ => h (.print hk ht)
    next hprint =>
    split
    · exact .bind (takes_block n) fun us t => takes_semicolon.imp fun _ _ _ h ht _ _ _ _ _ _ _ => h (.ofBlock ht)
    next hblock =>
      refine .bind (takes_expression n) fun us value => ?_
      rw [pure_bind]
      refine takes_semicolon.imp fun vs t rest h ht h₇ h₆ h₅ h₄ h₃ h₂ h₁ => h (.ofExpression ht ?_)
      rw [← List.append_assoc]
      simp only [Bool.not_eq_true] at hlet hconst hfun hif hreturn hprint hblock
      simp only [Lacks, Token.statementWords, List.forall_mem_cons, List.not_mem_nil, false_imp_iff,
        implies_true, and_true,
        h₁, h₂, h₃, h₄, h₅, h₆, h₇, hlet, hconst, hfun, hif, hreturn, hprint, hblock]

theorem takes_declaration {kind : Tree.Kind} {keyword : String}
    (hmake : ∀ {k e : Token} {us vs rest : List Token} {name value : Tree}, k.isSymbol keyword = true →
      Derives .name us [name] (e :: (vs ++ rest)) → e.isSymbol "=" = true → Derives .expression vs [value] rest →
      Derives .declaration (k :: (us ++ e :: vs)) [.node kind (k.span.join value.span) [name, value]] rest) : ∀ n,
    Takes (declaration stop kind keyword n) fun us t rest => Derives .declaration us [t] rest
  | 0 => by
    unfold declaration
    exact .raise _
  | n + 1 => by
    unfold declaration
    exact .accept fun k hk => .bind (takes_identifier stop _) fun us name => .accept fun e he =>
      .last (takes_expression n) fun vs value rest hvalue hname => hmake hk (hname _) he hvalue

theorem takes_letIn : ∀ n, Takes (letIn stop n) fun us t rest => Derives .letIn us [t] rest
  | 0 => by
    unfold letIn
    exact .raise _
  | n + 1 => by
    unfold letIn
    exact .accept fun k hk => .accept fun o ho => .bind (takes_letInDeclarations n) fun us ds =>
      .accept fun c hc => .accept fun i hi => .last (takes_block n) fun vs body rest hbody hds =>
        .letIn hk ho hds hc hi hbody

theorem takes_letInDeclarations : ∀ n, Takes (letInDeclarations stop n) (Derives (.sequence .declaration true))
  | 0 => by
    unfold letInDeclarations
    exact .raise _
  | n + 1 => by
    unfold letInDeclarations
    refine .sees fun seen => ?_
    dsimp only
    split
    next hseen => exact .ret fun rest h => .noSequence (h.trans hseen)
    next hseen =>
    have more : ∀ us tree, Takes (do
        let _ ← accept? ";"
        return tree :: (← letInDeclarations stop n)) fun vs ts rest => Derives .declaration us [tree] (vs ++ rest) →
          (us ++ vs ++ rest).head?.any (·.isSymbol rightBrace) = seen →
          Derives (.sequence .declaration true) (us ++ vs) ts rest := by
      intro us tree
      refine .accept? ?_ fun c hc => ?_
      · exact .last (takes_letInDeclarations n) fun vs ts rest hts hend ht hopen =>
          .sequence ht hts (hopen.trans (eq_false_of_ne_true hseen)) hend
      · exact .last (takes_letInDeclarations n) fun vs ts rest hts ht hopen =>
          .semicolon ht hc hts (hopen.trans (eq_false_of_ne_true hseen))
    refine .sees fun _ => .sees fun _ => ?_
    split
    · exact .bind (takes_declaration .letDeclaration n) fun us t => (more us t).imp fun _ _ _ h ht _ _ => h ht
    split
    · exact .bind (takes_declaration .constDeclaration n) fun us t => (more us t).imp fun _ _ _ h ht _ _ => h ht
    · exact .bind (.fail stop _) fun us t => (more us t).imp fun _ _ _ h ht _ _ => h ht

theorem takes_functionDeclaration : ∀ n,
    Takes (functionDeclaration stop n) fun us t rest => Derives .statement us [t] rest
  | 0 => by
    unfold functionDeclaration
    exact .raise _
  | n + 1 => by
    unfold functionDeclaration
    exact .accept fun k hk => .bind (takes_identifier stop _) fun us name =>
      .bind (takes_parameterList stop n) fun vs params => .last (takes_block n) fun ws body rest hbody hparams hname =>
        .function hk (hname _) hparams hbody

theorem takes_ifStatement {kind : Tree.Kind} (hkind : kind = .ifStatement ∨ kind = .elseIf) : ∀ n,
    Takes (ifStatement stop kind n) fun us t rest => Derives (.conditional kind) us [t] rest
  | 0 => by
    unfold ifStatement
    exact .raise _
  | n + 1 => by
    unfold ifStatement
    refine .accept fun k hk => .accept fun o ho => .bind (takes_expression n) fun us test =>
      .accept fun c hc => .bind (takes_block n) fun vs body => ?_
    dsimp only
    refine .accept? (.ret fun rest hend hbody htest => ?_) fun e he => ?_
    · rw [List.append_nil] at htest ⊢
      exact .ifThen hkind hk ho htest hc hbody hend
    · dsimp only
      refine .sees fun _ => ?_
      split
      · exact .last (takes_ifStatement (.inr rfl) n) fun ws link rest hlink _ hbody htest =>
          .ifElseIf hkind hk ho htest hc hbody he hlink
      · refine .bind (takes_block n) fun ws other => ?_
        rw [pure_bind]
        refine .ret fun rest hother _ hbody htest => ?_
        rw [List.append_nil] at hbody htest ⊢
        exact .ifElse hkind hk ho htest hc hbody he hother

theorem takes_block : ∀ n, Takes (block stop n) fun us t rest => Derives .block us [t] rest
  | 0 => by
    unfold block
    exact .raise _
  | n + 1 => by
    unfold block
    exact .accept fun o ho => .bind (takes_blockStatements n) fun us ts => .accept fun c hc =>
      .ret fun rest hts => .block ho hts hc

theorem takes_blockStatements : ∀ n, Takes (blockStatements stop n) (Derives (.sequence .statement true))
  | 0 => by
    unfold blockStatements
    exact .raise _
  | n + 1 => by
    unfold blockStatements
    refine .sees fun seen => ?_
    split
    next hseen => exact .ret fun rest h => .noSequence (h.trans hseen)
    next hseen =>
    refine .peek fun tokens => ?_
    split
    · exact .fail stop _
    · exact .bind (takes_statement n) fun us t => .last (takes_blockStatements n) fun vs ts rest hts h _ hopen =>
        h.cons hts (hopen.trans (eq_false_of_ne_true hseen))

theorem takes_argumentList : ∀ n, Takes (argumentList stop n) fun us t rest => Derives .arguments us [t] rest
  | 0 => by
    unfold argumentList
    exact .raise _
  | n + 1 => by
    unfold argumentList
    exact .accept fun o ho => .bind (takes_expressions _ n) fun us ts => .accept fun c hc =>
      .ret fun rest hts => .arguments ho hts hc

theorem takes_expressions (close : String) : ∀ n, Takes (expressions stop close n) (Derives (.list .expression close))
  | 0 => by
    unfold expressions
    exact .raise _
  | n + 1 => by
    unfold expressions
    refine .sees fun seen => ?_
    split
    next hseen => exact .ret fun rest h => .noList (h.trans hseen)
    next hseen =>
      exact .bind (takes_expression n) fun us t => .last (takes_moreExpressions n) fun vs ts rest hts ht hopen =>
        .list ht hts (hopen.trans (eq_false_of_ne_true hseen))

theorem takes_moreExpressions : ∀ n, Takes (moreExpressions stop n) (Derives (.more .expression))
  | 0 => by
    unfold moreExpressions
    exact .raise _
  | n + 1 => by
    unfold moreExpressions
    refine .accept? (.ret fun _ => .noMore) fun c hc => ?_
    exact .bind (takes_expression n) fun us t => .last (takes_moreExpressions n) fun vs ts rest hts ht => .more hc ht hts

theorem takes_expression : ∀ n, Takes (expression stop n) fun us t rest => Derives .expression us [t] rest
  | 0 => by
    unfold expression
    exact .raise _
  | n + 1 => by
    unfold expression
    refine .peek fun tokens => ?_
    split
    next hlead => exact (takes_lambda n).imp fun us t rest h htokens => .ofLambda h (htokens ▸ hlead)
    next hlead =>
      exact (takes_comparison n).imp fun us t rest h htokens => .ofComparison h
        (htokens ▸ eq_false_of_ne_true hlead)

theorem takes_lambda : ∀ n, Takes (lambda stop n) fun us t rest => Derives .lambda us [t] rest
  | 0 => by
    unfold lambda
    exact .raise _
  | n + 1 => by
    unfold lambda
    refine .bind (takes_parameterList stop n) fun us params => .accept fun a ha => .sees fun seen => ?_
    dsimp only
    split
    · exact .last (takes_block n) fun vs body rest hbody _ hparams => .lambdaBlock hparams ha hbody
    next hseen =>
      exact .last (takes_expression n) fun vs value rest hvalue hopen hparams =>
        .lambdaValue hparams ha hvalue (hopen.trans (eq_false_of_ne_true hseen))

theorem takes_comparison : ∀ n, Takes (comparison stop n) fun us t rest => Derives .comparison us [t] rest
  | 0 => by
    unfold comparison
    exact .raise _
  | n + 1 => by
    unfold comparison
    refine .bind (takes_additive n) fun us left => .operation (fun t => List.any_eq_true) ?_
      (.ret fun rest hend hleft => ?_)
    · exact fun vs op hop => .last (takes_additive n) fun ws right rest hright hleft =>
        .comparison hleft.1 (hop _) hright.1 hright.2
    · rw [List.append_nil]
      exact .ofSum hleft.1 (List.forall_mem_append.mpr ⟨hleft.2, hend⟩)

theorem takes_additive : ∀ n, Takes (additive stop n) fun us t rest =>
    Derives .sum us [t] rest ∧ Lacks additiveOperators rest
  | 0 => by
    unfold additive
    exact .raise _
  | n + 1 => by
    unfold additive
    exact .bind (takes_term n) fun us left => (takes_additiveTail us left n).imp fun vs t rest h hleft =>
      h (.ofProduct hleft.1 hleft.2)

theorem takes_additiveTail (us : List Token) (left : Tree) : ∀ n, Takes (additiveTail stop left n) fun vs t rest =>
    Derives .sum us [left] (vs ++ rest) → Derives .sum (us ++ vs) [t] rest ∧ Lacks additiveOperators rest
  | 0 => by
    unfold additiveTail
    exact .raise _
  | n + 1 => by
    unfold additiveTail
    refine .operation (fun t => List.any_eq_true) (fun vs op hop => .bind (takes_term n) fun ws right => ?_)
      (.ret fun rest hend hleft => ?_)
    · refine (takes_additiveTail (us ++ (vs ++ ws)) _ n).imp fun xs t rest h hright hleft => ?_
      simp only [List.append_assoc] at h hleft
      exact h (.sum (by rwa [List.append_assoc]) (hop _) hright.1 hright.2)
    · rw [List.append_nil]
      exact ⟨hleft, hend⟩

theorem takes_term : ∀ n, Takes (term stop n) fun us t rest =>
    Derives .product us [t] rest ∧ Lacks multiplicativeOperators rest
  | 0 => by
    unfold term
    exact .raise _
  | n + 1 => by
    unfold term
    exact .bind (takes_power n) fun us left => (takes_termTail us left n).imp fun vs t rest h hleft => h (.ofPower hleft)

theorem takes_termTail (us : List Token) (left : Tree) :
    ∀ n, Takes (termTail stop left n) fun vs t rest => Derives .product us [left] (vs ++ rest) →
    Derives .product (us ++ vs) [t] rest ∧ Lacks multiplicativeOperators rest
  | 0 => by
    unfold termTail
    exact .raise _
  | n + 1 => by
    unfold termTail
    refine .operation (fun t => List.any_eq_true) (fun vs op hop => .bind (takes_power n) fun ws right => ?_)
      (.ret fun rest hend hleft => ?_)
    · refine (takes_termTail (us ++ (vs ++ ws)) _ n).imp fun xs t rest h hright hleft => ?_
      simp only [List.append_assoc] at h hleft
      exact h (.product (by rwa [List.append_assoc]) (hop _) hright)
    · rw [List.append_nil]
      exact ⟨hleft, hend⟩

theorem takes_power : ∀ n, Takes (power stop n) fun us t rest => Derives .power us [t] rest
  | 0 => by
    unfold power
    exact .raise _
  | n + 1 => by
    unfold power
    have hpower (t : Token) : t.isSymbol "**" = true ↔ ∃ text ∈ ["**"], t.isSymbol text = true := by simp
    refine .bind (takes_unary n) fun us base => .operation hpower ?_
      (.ret fun rest hend hbase => ?_)
    · exact fun vs op hop => .last (takes_power n) fun ws exponent rest hexponent hbase =>
        .power hbase (hop _) hexponent
    · rw [List.append_nil]
      exact .ofUnary hbase (hend _ (List.mem_singleton_self _))

theorem takes_unary : ∀ n, Takes (unary stop n) fun us t rest => Derives .unary us [t] rest
  | 0 => by
    unfold unary
    exact .raise _
  | n + 1 => by
    unfold unary
    refine .accept? ((takes_primary n).imp fun _ _ _ h hlead => .ofPrimary h hlead) fun m hm => ?_
    refine .next (.raise _) fun t tail => ?_
    dsimp only
    split
    next hkind => exact .rest (.ret fun _ => .negative hm hkind)
    next => exact .of (.raise _)

theorem takes_primary : ∀ n, Takes (primary stop n) fun us t rest => Derives .primary us [t] rest
  | 0 => by
    unfold primary
    exact .raise _
  | n + 1 => by
    unfold primary
    refine .next (.fail stop _) fun t tail => ?_
    dsimp only
    split
    next hkind => exact .rest (.ret fun _ => .number hkind)
    next hkind =>
      refine .rest ?_
      split
      next hclosed => exact .ret fun _ => .string hkind hclosed
      next => exact .raise _
    next =>
      refine .of (.bind (takes_identifier stop _) fun us name => .sees fun seen => ?_)
      split
      · exact .last (takes_argumentList n) fun vs args rest hargs _ hname => .call (hname _) hargs
      next hseen =>
        refine .accept? (.ret fun rest hbracket hcall hname => ?_) fun o ho => .bind (takes_expression n)
          fun vs index => ?_
        · rw [List.append_nil]
          have hcall := hcall.trans (eq_false_of_ne_true hseen)
          exact .ofName (hname _) (List.forall_mem_cons.mpr ⟨hcall, List.forall_mem_singleton.mpr hbracket⟩)
        · exact .accept fun c hc => .ret fun rest hindex _ hname => .access (hname _) ho hindex hc
    next hnumber hstring hidentifier =>
      split
      next ho =>
        exact .rest (.bind (takes_expressions _ n) fun us ts => .accept fun c hc => .ret fun rest hts =>
          .listLiteral ho hts hc (Token.kind_eq_punct ho hidentifier))
      next =>
        split
        next ho =>
          exact .rest (.bind (takes_expression n) fun us inner => .accept fun c hc => .ret fun rest hinner =>
            .parenthesized ho hinner hc (Token.kind_eq_punct ho hidentifier))
        next => exact .of (.fail stop _)

end

theorem takes_program : ∀ n, Takes (program stop n) (Derives (.sequence .statement false))
  | 0 => by
    unfold program
    exact .raise _
  | n + 1 => by
    unfold program
    refine .peek fun tokens => ?_
    split
    next hend => exact .ret fun rest (h : rest = tokens) => .noSequence (h ▸ hend)
    next hopen =>
      exact .bind (takes_statement stop n) fun us t => .last (takes_program n) fun vs ts rest hts h htokens =>
        h.cons hts (by rw [htokens]; exact eq_false_of_ne_true hopen)

end Parser

def Phrase.isList : Phrase → Bool
  | .list _ _ | .more _ | .sequence _ _ => true
  | _ => false

theorem Derives.ne_nil {p : Phrase} {us rest : List Token} {ts : List Tree} (h : Derives p us ts rest)
    (hp : p.isList = false) : us ≠ [] := by
  induction h with
  | _ => simp_all [Phrase.isList]

theorem Derives.rest_eq_nil {p : Phrase} {us rest : List Token} {ts : List Tree}
    (h : Derives (.sequence p false) us ts rest) : rest = [] := by
  generalize hq : Phrase.sequence p false = q at h
  induction h with
  | noSequence h => cases hq; exact List.isEmpty_iff.mp h
  | sequence _ _ _ _ _ ih => exact ih hq
  | semicolon _ _ _ _ _ ih => exact ih hq
  | _ => cases hq

theorem Tree.derives_of_parse {source : List Char} {tree : Tree} (h : Tree.parse source = .ok tree) :
    ∃ ts, tree = .node .program (.ofOffsets 0 (byteLength source)) ts ∧
      Derives (.sequence .statement false) ((Token.scan source).filter (·.kind ≠ .comment)) ts [] := by
  unfold Tree.parse at h
  dsimp only at h
  generalize (Token.scan source).filter (·.kind ≠ .comment) = tokens at h ⊢
  cases hrun : Parser.program (.ofSource source) (Parser.budget tokens) tokens with
  | error e => rw [hrun] at h; cases h
  | ok p =>
    rw [hrun] at h
    cases h
    refine ⟨p.1, rfl, ?_⟩
    obtain ⟨used, hused, hderives⟩ := Parser.takes_program _ _ tokens p.1 p.2 hrun
    have hrest := hderives.rest_eq_nil
    rw [hrest, List.append_nil] at hused
    exact hused ▸ hrest ▸ hderives

theorem Tree.exists_of_parse (source : List Char) {p : Tree → Bool} (h : (Tree.parse source).toOption.any p = true) :
    ∃ tree, Tree.parse source = .ok tree ∧ p tree = true := by
  cases hparse : Tree.parse source with
  | error e => rw [hparse] at h; cases h
  | ok tree => exact ⟨tree, rfl, by rwa [hparse] at h⟩

end Bies
