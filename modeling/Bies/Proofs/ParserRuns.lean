import Bies.Proofs.Grammar
import Mathlib.Order.Filter.AtTopBot.Basic

/-!
# Runs of parsers

Every phrase that the grammar derives is read: with any large budget its parser takes the tokens of the phrase, gives its
trees and leaves what stands behind it.
-/

namespace Bies

/-- From the tokens `s` the parser gives `a` and leaves `s'`. -/
def Parser.Goes {α : Type} (x : Parser α) (s : List Token) (a : α) (s' : List Token) : Prop := x.run s = .ok (a, s')

namespace Parser.Goes

variable {α β : Type} {stop : Finish} {text : String} {s s' : List Token} {t : Token} {b : β}

theorem bind {x : Parser α} {k : α → Parser β} {a : α} {s'' : List Token} (hx : x.Goes s a s')
    (hk : (k a).Goes s' b s'') : (x >>= k).Goes s b s'' := by
  unfold Goes
  rw [StateT.run_bind, hx]
  exact hk

theorem ret {a : α} : (pure a : Parser α).Goes s a s := rfl

theorem peek {k : List Token → Parser β} (hk : (k s).Goes s b s') : (get >>= k).Goes s b s' := hk

theorem rest {k : PUnit → Parser β} {s'' : List Token} (hk : (k ()).Goes s b s') : (set s >>= k).Goes s'' b s' := hk

theorem sees {k : Bool → Parser β} (hk : (k (s.head?.any (·.isSymbol text))).Goes s b s') :
    (Parser.sees text >>= k).Goes s b s' := hk

theorem sees_then {x y : Parser β} (hs : s.head?.any (·.isSymbol text) = true) (hx : x.Goes s b s') :
    (Parser.sees text >>= fun seen => if seen = true then x else y).Goes s b s' := by
  refine .sees ?_
  rw [hs]
  exact hx

theorem sees_else {x y : Parser β} (hs : s.head?.any (·.isSymbol text) = false) (hy : y.Goes s b s') :
    (Parser.sees text >>= fun seen => if seen = true then x else y).Goes s b s' := by
  refine .sees ?_
  rw [hs]
  exact hy

theorem accept? (ht : t.isSymbol text = true) : (Parser.accept? text).Goes (t :: s) (some t) s := by
  show (if t.isSymbol text = true then _ else _ : Parser (Option Token)) (t :: s) = _
  rw [if_pos ht]
  rfl

theorem accept?_none (hs : s.head?.any (·.isSymbol text) = false) : (Parser.accept? text).Goes s none s := by
  cases s with
  | nil => rfl
  | cons t s =>
    show (if t.isSymbol text = true then _ else _ : Parser (Option Token)) (t :: s) = _
    rw [if_neg (by simpa using hs)]
    rfl

theorem accept (ht : t.isSymbol text = true) : (Parser.accept stop text).Goes (t :: s) t s :=
  .bind (.accept? ht) .ret

theorem identifier {what : Expectation} (hkind : t.kind = .identifier) (htext : t.text ∉ Token.keywords) :
    (Parser.identifier stop what).Goes (t :: s) (.leaf .identifier t.span) s := by
  show (if _ then _ else _ : Parser Tree) (t :: s) = _
  rw [if_pos ⟨hkind, htext⟩]
  rfl

theorem operator : (Parser.operator stop).Goes (t :: s) (.leaf .operator t.span) s := rfl

theorem seesAny_then {texts : List String} {k : Tree → Parser β} {y : Parser β} (htext : text ∈ texts)
    (ht : t.isSymbol text = true) (hk : (k (.leaf .operator t.span)).Goes s b s') :
    (Parser.seesAny texts >>= fun seen => if seen = true then Parser.operator stop >>= k else y).Goes (t :: s) b s' := by
  show (if texts.any t.isSymbol = true then _ else _ : Parser β) (t :: s) = _
  rw [if_pos (List.any_eq_true.mpr ⟨text, htext, ht⟩)]
  exact hk

theorem seesAny_else {texts : List String} {x y : Parser β} (hs : Lacks texts s) (hy : y.Goes s b s') :
    (Parser.seesAny texts >>= fun seen => if seen = true then x else y).Goes s b s' := by
  show (if (s.head?.any fun t => texts.any t.isSymbol) = true then _ else _ : Parser β) s = _
  rw [if_neg ?_]
  · exact hy
  · cases s with
    | nil => simp
    | cons t s => simpa [Lacks] using hs

end Parser.Goes

namespace Parser

/-- With every budget that is large enough the parser goes from `s` to `s'`. -/
def Settles {α : Type} (x : Nat → Parser α) (s : List Token) (a : α) (s' : List Token) : Prop :=
  ∀ᶠ n in Filter.atTop, (x n).Goes s a s'

theorem Settles.succ {α : Type} {x : Nat → Parser α} {s s' : List Token} {a : α}
    (h : ∀ᶠ n in Filter.atTop, (x (n + 1)).Goes s a s') : Settles x s a s' := by
  obtain ⟨N, hN⟩ := Filter.eventually_atTop.mp h
  refine Filter.eventually_atTop.mpr ⟨N + 1, fun n hn => ?_⟩
  obtain ⟨m, rfl⟩ := Nat.exists_eq_add_of_le' hn
  exact hN (m + N) (Nat.le_add_left N m)

variable (stop : Finish)

def Single (P : Tree → Prop) (ts : List Tree) : Prop := ∃ t, ts = [t] ∧ P t

def Obtains : Phrase → List Token → List Tree → List Token → Prop
  | .name, s, ts, s' => ∃ u : Token, u.kind = .identifier ∧ u.text ∉ Token.keywords ∧ s = u :: s' ∧
      ts = [.leaf .identifier u.span]
  | .operator texts, s, ts, s' => ∃ u : Token, ∃ text ∈ texts, u.isSymbol text = true ∧ s = u :: s' ∧
      ts = [.leaf .operator u.span]
  | .list .name close, s, ts, s' =>
    s.head?.any (·.isSymbol close) = true ∧ ts = [] ∧ s = s' ∨ s.head?.any (·.isSymbol close) = false ∧
      ∃ t us r, ts = t :: us ∧ (identifier stop .identifier).Goes s t r ∧ Settles (moreParameters stop) r us s'
  | .more .name, s, ts, s' => Settles (moreParameters stop) s ts s'
  | .list .expression close, s, ts, s' => Settles (expressions stop close) s ts s'
  | .more .expression, s, ts, s' => Settles (moreExpressions stop) s ts s'
  | .sequence .declaration true, s, ts, s' => Settles (letInDeclarations stop) s ts s'
  | .sequence .statement true, s, ts, s' => Settles (blockStatements stop) s ts s'
  | .sequence .statement false, s, ts, s' => Settles (program stop) s ts s'
  | .list _ _, _, _, _ | .more _, _, _, _ | .sequence _ _, _, _, _ => True
  | .parameters, s, ts, s' => Single (Settles (parameterList stop) s · s') ts
  | .arguments, s, ts, s' => Single (Settles (argumentList stop) s · s') ts
  | .declaration, s, ts, s' => Single (fun t => ∃ kind keyword, (kind = .letDeclaration ∧ keyword = "let" ∨
      kind = .constDeclaration ∧ keyword = "const") ∧ s.head?.any (·.isSymbol keyword) = true ∧
      Settles (declaration stop kind keyword) s t s') ts
  -- the semicolon after a statement is read with it
  | .statement, s, ts, s' => Single (fun t => ∀ o r, (accept? ";").Goes s' o r → Settles (statement stop) s t r) ts
  | .letIn, s, ts, s' => Single (Settles (letIn stop) s · s') ts
  | .conditional kind, s, ts, s' => Single (Settles (ifStatement stop kind) s · s') ts
  | .block, s, ts, s' => Single (Settles (block stop) s · s') ts
  | .expression, s, ts, s' => Single (Settles (expression stop) s · s') ts
  | .lambda, s, ts, s' => Single (Settles (lambda stop) s · s') ts
  | .comparison, s, ts, s' => Single (Settles (comparison stop) s · s') ts
  -- operators of the same level may follow
  | .sum, s, ts, s' =>
    Single (fun t => ∀ t' r, Settles (additiveTail stop t) s' t' r → Settles (additive stop) s t' r) ts
  | .product, s, ts, s' =>
    Single (fun t => ∀ t' r, Settles (termTail stop t) s' t' r → Settles (term stop) s t' r) ts
  | .power, s, ts, s' => Single (Settles (power stop) s · s') ts
  | .unary, s, ts, s' => Single (Settles (unary stop) s · s') ts
  | .primary, s, ts, s' => Single (Settles (primary stop) s · s') ts

end Parser

theorem head_isSymbol_eq {s : List Token} {w : String} (h : s.head?.any (·.isSymbol w) = true) (v : String) :
    s.head?.any (·.isSymbol v) = (w == v) := by
  cases s with
  | nil => cases h
  | cons u s => exact Token.isSymbol_of_isSymbol h v

theorem lacks_of_isSymbol {texts : List String} {w : String} {u : Token} {s : List Token} (h : u.isSymbol w = true)
    (hw : w ∉ texts) : Lacks texts (u :: s) := by
  intro v hv
  rw [head_isSymbol_eq (s := u :: s) h, beq_eq_false_iff_ne]
  exact fun e => hw (e ▸ hv)

theorem Parser.Single.out {P : Tree → Prop} {t : Tree} (h : Single P [t]) : P t := by
  obtain ⟨u, hu, hP⟩ := h
  cases hu
  exact hP

open Bies.Parser

section
variable {stop : Finish} {n : Nat} {s s' : List Token} {t : Tree} {u : Token}

theorem goes_primary (hu : u.kind = .identifier) (htext : u.text ∉ Token.keywords)
    (h : (do
      if ← sees "(" then
        let args ← argumentList stop n
        return .covering .call [.leaf .identifier u.span, args]
      else
        match ← accept? "[" with
        | none => return .leaf .identifier u.span
        | some _ =>
          let index ← expression stop n
          let last ← accept stop "]"
          return .node .listAccess (u.span.join last.span) [.leaf .identifier u.span, index] :
            Parser Tree).Goes s t s') :
    (primary stop (n + 1)).Goes (u :: s) t s' := by
  unfold primary
  refine .peek ?_
  dsimp only
  rw [hu]
  exact .bind (.identifier hu htext) h

theorem settles_additiveTail (hs : Lacks additiveOperators s) : Settles (additiveTail stop t) s t s := by
  refine .succ (.of_forall fun n => ?_)
  unfold additiveTail
  exact .seesAny_else hs .ret

theorem settles_termTail (hs : Lacks multiplicativeOperators s) : Settles (termTail stop t) s t s := by
  refine .succ (.of_forall fun n => ?_)
  unfold termTail
  exact .seesAny_else hs .ret

end

/-!
## The rules of the grammar

One lemma for each rule: where the parts of a phrase are obtained, so is the phrase.
-/

namespace Parser.Obtains

variable {stop : Finish} {p : Phrase} {inside : Bool} {close : String} {kind : Tree.Kind} {k o c e i : Token}
  {op? : Option Token} {s r r' r'' s' : List Token} {t left op right name params args test body value : Tree}
  {ts ds : List Tree}

theorem noList (h : s.head?.any (·.isSymbol close) = true) : Obtains stop (.list p close) s [] s := by
  cases p with
  | name => exact .inl ⟨h, rfl, rfl⟩
  | expression =>
    refine .succ (.of_forall fun n => ?_)
    unfold expressions
    exact .sees_then h .ret
  | _ => trivial

theorem list (ht : Obtains stop p s [t] r) (hts : Obtains stop (.more p) r ts s')
    (hopen : s.head?.any (·.isSymbol close) = false) : Obtains stop (.list p close) s (t :: ts) s' := by
  cases p with
  | name =>
    obtain ⟨u, hkind, htext, rfl, hu⟩ := ht
    cases hu
    exact .inr ⟨hopen, _, _, _, rfl, .identifier hkind htext, hts⟩
  | expression =>
    refine .succ ?_
    filter_upwards [ht.out, hts] with n hitem hmore
    unfold expressions
    exact .sees_else hopen (.bind hitem (.bind hmore .ret))
  | _ => trivial

theorem noMore (h : s.head?.any (·.isSymbol ",") = false) : Obtains stop (.more p) s [] s := by
  cases p with
  | name =>
    refine .succ (.of_forall fun n => ?_)
    unfold moreParameters
    exact .bind (.accept?_none h) .ret
  | expression =>
    refine .succ (.of_forall fun n => ?_)
    unfold moreExpressions
    exact .bind (.accept?_none h) .ret
  | _ => trivial

theorem more (hc : c.isSymbol "," = true) (ht : Obtains stop p s [t] r) (hts : Obtains stop (.more p) r ts s') :
    Obtains stop (.more p) (c :: s) (t :: ts) s' := by
  cases p with
  | name =>
    obtain ⟨u, hkind, htext, rfl, hu⟩ := ht
    cases hu
    refine .succ ?_
    filter_upwards [hts] with n hmore
    unfold moreParameters
    exact .bind (.accept? hc) (.bind (.identifier hkind htext) (.bind hmore .ret))
  | expression =>
    refine .succ ?_
    filter_upwards [ht.out, hts] with n hitem hmore
    unfold moreExpressions
    exact .bind (.accept? hc) (.bind hitem (.bind hmore .ret))
  | _ => trivial

theorem noSequence (h : closes inside s = true) : Obtains stop (.sequence p inside) s [] s := by
  cases p with
  | declaration =>
    cases inside with
    | true =>
      refine .succ (.of_forall fun n => ?_)
      unfold letInDeclarations
      exact .sees_then h .ret
    | false => trivial
  | statement =>
    cases inside with
    | true =>
      refine .succ (.of_forall fun n => ?_)
      unfold blockStatements
      exact .sees_then h .ret
    | false =>
      obtain rfl : s = [] := List.isEmpty_iff.mp h
      refine .succ (.of_forall fun n => ?_)
      unfold program
      exact .ret
  | _ => trivial

theorem statements (hs : s ≠ []) (hopen : closes inside s = false) (ht : Settles (Parser.statement stop) s t r)
    (hts : Obtains stop (.sequence .statement inside) r ts s') :
    Obtains stop (.sequence .statement inside) s (t :: ts) s' := by
  have hsome : ¬ s.isEmpty = true := fun h => hs (List.isEmpty_iff.mp h)
  cases inside with
  | true =>
    refine .succ ?_
    filter_upwards [ht, hts] with n ht hts
    unfold blockStatements
    refine .sees_else hopen (.peek ?_)
    rw [if_neg hsome]
    exact .bind ht (.bind hts .ret)
  | false =>
    refine .succ ?_
    filter_upwards [ht, hts] with n ht hts
    unfold program
    refine .peek ?_
    rw [if_neg hsome]
    exact .bind ht (.bind hts .ret)

theorem declarations (hopen : closes true s = false) (ht : Obtains stop .declaration s [t] r)
    (hend : (accept? ";").Goes r op? r') (hts : Settles (letInDeclarations stop) r' ts s') :
    Settles (letInDeclarations stop) s (t :: ts) s' := by
  obtain ⟨kind, keyword, hkeyword, hlead, ht⟩ := ht.out
  refine .succ ?_
  filter_upwards [ht, hts] with n ht hts
  unfold letInDeclarations
  refine .sees_else hopen (.sees (.sees ?_))
  rcases hkeyword with ⟨rfl, rfl⟩ | ⟨rfl, rfl⟩
  · rw [if_pos hlead]
    exact .bind ht (.bind hend (.bind hts .ret))
  · rw [if_neg (by rw [head_isSymbol_eq hlead]; decide), if_pos hlead]
    exact .bind ht (.bind hend (.bind hts .ret))

theorem sequence (hs : p = .statement → s ≠ []) (hopen : closes inside s = false) (ht : Obtains stop p s [t] r)
    (hend : (accept? ";").Goes r op? r') (hts : Obtains stop (.sequence p inside) r' ts s') :
    Obtains stop (.sequence p inside) s (t :: ts) s' := by
  cases p with
  | declaration =>
    cases inside with
    | true => exact declarations hopen ht hend hts
    | false => trivial
  | statement => exact statements (hs rfl) hopen (ht.out _ _ hend) hts
  | _ => trivial

theorem parameters (ho : o.isSymbol "(" = true) (hts : Obtains stop (.list .name ")") s ts (c :: s'))
    (hc : c.isSymbol ")" = true) :
    Obtains stop .parameters (o :: s) [.node .parameterList (o.span.join c.span) ts] s' := by
  refine ⟨_, rfl, ?_⟩
  rcases hts with ⟨hclose, rfl, rfl⟩ | ⟨hopen, t, ts, r, rfl, hname, hmore⟩
  · refine .of_forall fun n => ?_
    unfold parameterList
    exact .bind (.accept ho) (.sees_then hclose (.bind .ret (.bind (.accept hc) .ret)))
  · filter_upwards [hmore] with n hmore
    unfold parameterList
    exact .bind (.accept ho) (.sees_else hopen (.bind hname (.bind hmore (.bind .ret (.bind (.accept hc) .ret)))))

theorem arguments (ho : o.isSymbol "(" = true) (hts : Obtains stop (.list .expression ")") s ts (c :: s'))
    (hc : c.isSymbol ")" = true) :
    Obtains stop .arguments (o :: s) [.node .argumentList (o.span.join c.span) ts] s' := by
  refine ⟨_, rfl, .succ ?_⟩
  filter_upwards [hts] with n hitems
  unfold argumentList
  exact .bind (.accept ho) (.bind hitems (.bind (.accept hc) .ret))

theorem declaration {keyword : String} (hkeyword : kind = .letDeclaration ∧ keyword = "let" ∨
    kind = .constDeclaration ∧ keyword = "const") (hk : k.isSymbol keyword = true)
    (hname : Obtains stop .name s [name] (e :: r)) (he : e.isSymbol "=" = true)
    (hvalue : Obtains stop .expression r [value] s') :
    Obtains stop .declaration (k :: s) [.node kind (k.span.join value.span) [name, value]] s' := by
  obtain ⟨u, hkind, htext, rfl, hu⟩ := hname
  cases hu
  refine ⟨_, rfl, kind, keyword, hkeyword, hk, .succ ?_⟩
  filter_upwards [hvalue.out] with n hvalue
  unfold Parser.declaration
  exact .bind (.accept hk) (.bind (.identifier hkind htext) (.bind (.accept he) (.bind hvalue .ret)))

theorem letIn (hk : k.isSymbol "let" = true) (ho : o.isSymbol leftBrace = true)
    (hds : Obtains stop (.sequence .declaration true) s ds (c :: i :: r)) (hc : c.isSymbol rightBrace = true)
    (hi : i.isSymbol "in" = true) (hbody : Obtains stop .block r [body] s') :
    Obtains stop .letIn (k :: o :: s) [.node .letIn (k.span.join body.span) (ds ++ [body])] s' := by
  refine ⟨_, rfl, .succ ?_⟩
  filter_upwards [hds, hbody.out] with n hds hbody
  unfold Parser.letIn
  exact .bind (.accept hk) (.bind (.accept ho) (.bind hds (.bind (.accept hc) (.bind (.accept hi) (.bind hbody .ret)))))

theorem block (ho : o.isSymbol leftBrace = true) (hts : Obtains stop (.sequence .statement true) s ts (c :: s'))
    (hc : c.isSymbol rightBrace = true) :
    Obtains stop .block (o :: s) [.node .block (o.span.join c.span) ts] s' := by
  refine ⟨_, rfl, .succ ?_⟩
  filter_upwards [hts] with n hstatements
  unfold Parser.block
  exact .bind (.accept ho) (.bind hstatements (.bind (.accept hc) .ret))

/-! ### Expressions -/

theorem lambdaBlock (hparams : Obtains stop .parameters s [params] (e :: r)) (he : e.isSymbol "=>" = true)
    (hbrace : r.head?.any (·.isSymbol leftBrace) = true) (hbody : Obtains stop .block r [body] s') :
    Obtains stop .lambda s [.node .lambda (params.span.join body.span) [params, body]] s' := by
  refine ⟨_, rfl, .succ ?_⟩
  filter_upwards [hparams.out, hbody.out] with n hparams hbody
  unfold Parser.lambda
  exact .bind hparams (.bind (.accept he) (.sees_then hbrace (.bind hbody .ret)))

theorem lambdaValue (hparams : Obtains stop .parameters s [params] (e :: r)) (he : e.isSymbol "=>" = true)
    (hopen : r.head?.any (·.isSymbol leftBrace) = false) (hvalue : Obtains stop .expression r [value] s') :
    Obtains stop .lambda s [.node .lambda (params.span.join value.span) [params, value]] s' := by
  refine ⟨_, rfl, .succ ?_⟩
  filter_upwards [hparams.out, hvalue.out] with n hparams hvalue
  unfold Parser.lambda
  exact .bind hparams (.bind (.accept he) (.sees_else hopen (.bind hvalue .ret)))

theorem ofLambda (h : Obtains stop .lambda s ts s') (hlead : startsLambda s = true) :
    Obtains stop .expression s ts s' := by
  obtain ⟨t, rfl, h⟩ := h
  refine ⟨t, rfl, .succ ?_⟩
  filter_upwards [h] with n h
  unfold expression
  refine .peek ?_
  rw [if_pos hlead]
  exact h

theorem ofComparison (h : Obtains stop .comparison s ts s') (hlead : startsLambda s = false) :
    Obtains stop .expression s ts s' := by
  obtain ⟨t, rfl, h⟩ := h
  refine ⟨t, rfl, .succ ?_⟩
  filter_upwards [h] with n h
  unfold expression
  refine .peek ?_
  rw [hlead]
  exact h

theorem comparison (hleft : Obtains stop .sum s [left] r) (hop : Obtains stop (.operator comparisonOperators) r [op] r')
    (hright : Obtains stop .sum r' [right] s') (hend : Lacks additiveOperators s') :
    Obtains stop .comparison s [.covering .comparison [left, op, right]] s' := by
  obtain ⟨u, text, htext, hu, rfl, hop⟩ := hop
  cases hop
  have hother : ∀ w ∈ comparisonOperators, w ∉ additiveOperators := by decide
  have hleft := hleft.out _ _ (settles_additiveTail (lacks_of_isSymbol hu (hother text htext)))
  refine ⟨_, rfl, .succ ?_⟩
  filter_upwards [hleft, hright.out _ _ (settles_additiveTail hend)] with n hleft hright
  unfold Parser.comparison
  exact .bind hleft (.seesAny_then htext hu (.bind hright .ret))

theorem ofSum (h : Obtains stop .sum s ts s') (hend : Lacks (additiveOperators ++ comparisonOperators) s') :
    Obtains stop .comparison s ts s' := by
  obtain ⟨t, rfl, h⟩ := h
  obtain ⟨hadditive, hcomparison⟩ := List.forall_mem_append.mp hend
  refine ⟨t, rfl, .succ ?_⟩
  filter_upwards [h _ _ (settles_additiveTail hadditive)] with n h
  unfold Parser.comparison
  exact .bind h (.seesAny_else hcomparison .ret)

theorem sum (hleft : Obtains stop .sum s [left] r) (hop : Obtains stop (.operator additiveOperators) r [op] r')
    (hright : Obtains stop .product r' [right] s') (hend : Lacks multiplicativeOperators s') :
    Obtains stop .sum s [.covering .arithmetic [left, op, right]] s' := by
  obtain ⟨u, text, htext, hu, rfl, hop⟩ := hop
  cases hop
  refine ⟨_, rfl, fun t' r htail => hleft.out _ _ (.succ ?_)⟩
  filter_upwards [hright.out _ _ (settles_termTail hend), htail] with n hright htail
  unfold additiveTail
  exact .seesAny_then htext hu (.bind hright htail)

theorem ofProduct (h : Obtains stop .product s ts s') (hend : Lacks multiplicativeOperators s') :
    Obtains stop .sum s ts s' := by
  obtain ⟨t, rfl, h⟩ := h
  refine ⟨t, rfl, fun t' r htail => .succ ?_⟩
  filter_upwards [h _ _ (settles_termTail hend), htail] with n h htail
  unfold additive
  exact .bind h htail

theorem product (hleft : Obtains stop .product s [left] r)
    (hop : Obtains stop (.operator multiplicativeOperators) r [op] r') (hright : Obtains stop .power r' [right] s') :
    Obtains stop .product s [.covering .arithmetic [left, op, right]] s' := by
  obtain ⟨u, text, htext, hu, rfl, hop⟩ := hop
  cases hop
  refine ⟨_, rfl, fun t' r htail => hleft.out _ _ (.succ ?_)⟩
  filter_upwards [hright.out, htail] with n hright htail
  unfold termTail
  exact .seesAny_then htext hu (.bind hright htail)

theorem ofPower (h : Obtains stop .power s ts s') : Obtains stop .product s ts s' := by
  obtain ⟨t, rfl, h⟩ := h
  refine ⟨t, rfl, fun t' r htail => .succ ?_⟩
  filter_upwards [h, htail] with n h htail
  unfold term
  exact .bind h htail

theorem power (hbase : Obtains stop .unary s [left] r) (hop : Obtains stop (.operator ["**"]) r [op] r')
    (hexponent : Obtains stop .power r' [right] s') :
    Obtains stop .power s [.covering .arithmetic [left, op, right]] s' := by
  obtain ⟨u, text, htext, hu, rfl, hop⟩ := hop
  cases hop
  cases List.mem_singleton.mp htext
  refine ⟨_, rfl, .succ ?_⟩
  filter_upwards [hbase.out, hexponent.out] with n hbase hexponent
  unfold Parser.power
  exact .bind hbase (.sees_then hu (.bind .operator (.bind hexponent .ret)))

theorem ofUnary (h : Obtains stop .unary s ts s') (hend : s'.head?.any (·.isSymbol "**") = false) :
    Obtains stop .power s ts s' := by
  obtain ⟨t, rfl, h⟩ := h
  refine ⟨t, rfl, .succ ?_⟩
  filter_upwards [h] with n h
  unfold Parser.power
  exact .bind h (.sees_else hend .ret)

theorem negative (hk : k.isSymbol "-" = true) (hkind : c.kind = .number) :
    Obtains stop .unary (k :: c :: s) [.leaf (numberKind c) (k.span.join c.span)] s := by
  refine ⟨_, rfl, .succ (.of_forall fun n => ?_)⟩
  unfold unary
  refine .bind (.accept? hk) ?_
  show (if _ then _ else _ : Parser Tree) (_ :: _) = _
  rw [if_pos hkind]
  rfl

theorem ofPrimary (h : Obtains stop .primary s ts s') (hlead : s.head?.any (·.isSymbol "-") = false) :
    Obtains stop .unary s ts s' := by
  obtain ⟨t, rfl, h⟩ := h
  refine ⟨t, rfl, .succ ?_⟩
  filter_upwards [h] with n h
  unfold unary
  exact .bind (.accept?_none hlead) h

theorem number (hkind : c.kind = .number) : Obtains stop .primary (c :: s) [.leaf (numberKind c) c.span] s := by
  refine ⟨_, rfl, .succ (.of_forall fun n => ?_)⟩
  unfold primary
  refine .peek ?_
  dsimp only
  rw [hkind]
  exact .rest .ret

theorem string (hkind : c.kind = .string) (hclosed : isTerminatedString c.text.toList = true) :
    Obtains stop .primary (c :: s) [.leaf .string c.span] s := by
  refine ⟨_, rfl, .succ (.of_forall fun n => ?_)⟩
  unfold primary
  refine .peek ?_
  dsimp only
  rw [hkind]
  refine .rest ?_
  rw [if_pos hclosed]
  exact .ret

theorem ofName (h : Obtains stop .name s ts s') (hend : Lacks ["(", "["] s') : Obtains stop .primary s ts s' := by
  obtain ⟨u, hkind, htext, rfl, rfl⟩ := h
  refine ⟨_, rfl, .succ (.of_forall fun n => goes_primary hkind htext ?_)⟩
  exact .sees_else (hend "(" (by simp)) (.bind (.accept?_none (hend "[" (by simp))) .ret)

theorem call (hname : Obtains stop .name s [name] r) (hopen : r.head?.any (·.isSymbol "(") = true)
    (hargs : Obtains stop .arguments r [args] s') : Obtains stop .primary s [.covering .call [name, args]] s' := by
  obtain ⟨u, hkind, htext, rfl, hu⟩ := hname
  cases hu
  refine ⟨_, rfl, .succ ?_⟩
  filter_upwards [hargs.out] with n hargs
  exact goes_primary hkind htext (.sees_then hopen (.bind hargs .ret))

theorem access (hname : Obtains stop .name s [name] (o :: r)) (ho : o.isSymbol "[" = true)
    (hindex : Obtains stop .expression r [value] (c :: s')) (hc : c.isSymbol "]" = true) :
    Obtains stop .primary s [.node .listAccess (name.span.join c.span) [name, value]] s' := by
  obtain ⟨u, hkind, htext, rfl, hu⟩ := hname
  cases hu
  refine ⟨_, rfl, .succ ?_⟩
  filter_upwards [hindex.out] with n hindex
  refine goes_primary hkind htext (.sees_else ?_ (.bind (.accept? ho) (.bind hindex (.bind (.accept hc) .ret))))
  exact lacks_of_isSymbol ho (by decide) "(" (List.mem_singleton_self _)

theorem listLiteral (ho : o.isSymbol "[" = true) (hts : Obtains stop (.list .expression "]") s ts (c :: s'))
    (hc : c.isSymbol "]" = true) (hkind : o.kind = .punct) :
    Obtains stop .primary (o :: s) [.node .listLiteral (o.span.join c.span) ts] s' := by
  refine ⟨_, rfl, .succ ?_⟩
  filter_upwards [hts] with n hitems
  unfold primary
  refine .peek ?_
  dsimp only
  rw [hkind]
  dsimp only
  rw [if_pos ho]
  exact .rest (.bind hitems (.bind (.accept hc) .ret))

theorem parenthesized (ho : o.isSymbol "(" = true) (h : Obtains stop .expression s [t] (c :: s'))
    (hc : c.isSymbol ")" = true) (hkind : o.kind = .punct) : Obtains stop .primary (o :: s) [t] s' := by
  have hlist : o.isSymbol "[" = false := lacks_of_isSymbol (s := []) ho (by decide) "[" (List.mem_singleton_self _)
  refine ⟨_, rfl, .succ ?_⟩
  filter_upwards [h.out] with n h
  unfold primary
  refine .peek ?_
  dsimp only
  rw [hkind]
  dsimp only
  rw [if_neg (by simp [hlist]), if_pos ho]
  exact .rest (.bind h (.bind (.accept hc) .ret))

/-! ### Statements, told from each other by their first word -/

theorem ofDeclaration (h : Obtains stop .declaration s ts s')
    (hlet : s.head?.any (·.isSymbol "let") = true → s.tail.head?.any (·.text = leftBrace) = false) :
    Obtains stop .statement s ts s' := by
  obtain ⟨t, rfl, kind, keyword, hkeyword, hlead, h⟩ := h
  refine ⟨t, rfl, fun o r hend => .succ ?_⟩
  filter_upwards [h] with n h
  unfold Parser.statement
  iterate 7 refine .sees ?_
  rcases hkeyword with ⟨rfl, rfl⟩ | ⟨rfl, rfl⟩
  · rw [if_pos hlead]
    refine .peek ?_
    rw [hlet hlead]
    exact .bind h (.bind hend .ret)
  · simp only [head_isSymbol_eq hlead]
    exact .bind h (.bind hend .ret)

theorem ofLetIn (h : Obtains stop .letIn s ts s') (hlead : s.head?.any (·.isSymbol "let") = true)
    (hbrace : s.tail.head?.any (·.text = leftBrace) = true) : Obtains stop .statement s ts s' := by
  obtain ⟨t, rfl, h⟩ := h
  refine ⟨t, rfl, fun o r hend => .succ ?_⟩
  filter_upwards [h] with n h
  unfold Parser.statement
  iterate 7 refine .sees ?_
  rw [if_pos hlead]
  refine .peek ?_
  rw [if_pos hbrace]
  exact .bind h (.bind hend .ret)

theorem function (hk : k.isSymbol "fun" = true) (hname : Obtains stop .name s [name] r)
    (hparams : Obtains stop .parameters r [params] r') (hbody : Obtains stop .block r' [body] s') :
    Obtains stop .statement (k :: s) [.node .functionDeclaration (k.span.join body.span) [name, params, body]] s' := by
  obtain ⟨u, hkind, htext, rfl, hu⟩ := hname
  cases hu
  refine ⟨_, rfl, fun o r hend => .succ (Settles.succ (x := fun n => Parser.statement stop (n + 1)) ?_)⟩
  filter_upwards [hparams.out, hbody.out] with n hparams hbody
  unfold Parser.statement
  iterate 7 refine .sees ?_
  simp only [head_isSymbol_eq (s := _ :: _) hk]
  refine .bind ?_ (.bind hend .ret)
  unfold functionDeclaration
  exact .bind (.accept hk) (.bind (.identifier hkind htext) (.bind hparams (.bind hbody .ret)))

theorem ofConditional (h : Obtains stop (.conditional .ifStatement) s ts s')
    (hlead : s.head?.any (·.isSymbol "if") = true) : Obtains stop .statement s ts s' := by
  obtain ⟨t, rfl, h⟩ := h
  refine ⟨t, rfl, fun o r hend => .succ ?_⟩
  filter_upwards [h] with n h
  unfold Parser.statement
  iterate 7 refine .sees ?_
  simp only [head_isSymbol_eq hlead]
  exact .bind h (.bind hend .ret)

theorem ret (hk : k.isSymbol "return" = true) (hvalue : Obtains stop .expression s [value] s') :
    Obtains stop .statement (k :: s) [.node .returnStatement (k.span.join value.span) [value]] s' := by
  refine ⟨_, rfl, fun o r hend => .succ ?_⟩
  filter_upwards [hvalue.out] with n hvalue
  unfold Parser.statement
  iterate 7 refine .sees ?_
  simp only [head_isSymbol_eq (s := _ :: _) hk]
  exact .bind (.accept hk) (.bind hvalue (.bind .ret (.bind hend .ret)))

theorem print (hk : k.isSymbol "print" = true) (hargs : Obtains stop .arguments s [args] s') :
    Obtains stop .statement (k :: s) [.node .printStatement (k.span.join args.span) [args]] s' := by
  refine ⟨_, rfl, fun o r hend => .succ ?_⟩
  filter_upwards [hargs.out] with n hargs
  unfold Parser.statement
  iterate 7 refine .sees ?_
  simp only [head_isSymbol_eq (s := _ :: _) hk]
  exact .bind (.accept hk) (.bind hargs (.bind .ret (.bind hend .ret)))

theorem ofBlock (h : Obtains stop .block s ts s') (hlead : s.head?.any (·.isSymbol leftBrace) = true) :
    Obtains stop .statement s ts s' := by
  obtain ⟨t, rfl, h⟩ := h
  refine ⟨t, rfl, fun o r hend => .succ ?_⟩
  filter_upwards [h] with n h
  unfold Parser.statement
  iterate 7 refine .sees ?_
  simp only [head_isSymbol_eq hlead]
  exact .bind h (.bind hend .ret)

theorem ofExpression (h : Obtains stop .expression s [value] s') (hlead : Lacks Token.statementWords s) :
    Obtains stop .statement s [.covering .expressionStatement [value]] s' := by
  refine ⟨_, rfl, fun o r hend => .succ ?_⟩
  simp only [Lacks, Token.statementWords, List.forall_mem_cons] at hlead
  filter_upwards [h.out] with n h
  unfold Parser.statement
  iterate 7 refine .sees ?_
  simp only [hlead]
  exact .bind h (.bind .ret (.bind hend .ret))

/-! ### Conditionals -/

theorem ifThen (hk : k.isSymbol "if" = true) (ho : o.isSymbol "(" = true)
    (htest : Obtains stop .expression s [test] (c :: r)) (hc : c.isSymbol ")" = true)
    (hbody : Obtains stop .block r [body] s') (hend : s'.head?.any (·.isSymbol "else") = false) :
    Obtains stop (.conditional kind) (k :: o :: s) [.node kind (k.span.join body.span) [test, body]] s' := by
  refine ⟨_, rfl, .succ ?_⟩
  filter_upwards [htest.out, hbody.out] with n htest hbody
  unfold ifStatement
  refine .bind (.accept hk) (.bind (.accept ho) (.bind htest (.bind (.accept hc) (.bind hbody ?_))))
  exact .bind (.accept?_none hend) .ret

theorem ifElse (hk : k.isSymbol "if" = true) (ho : o.isSymbol "(" = true)
    (htest : Obtains stop .expression s [test] (c :: r)) (hc : c.isSymbol ")" = true)
    (hbody : Obtains stop .block r [body] (e :: r')) (he : e.isSymbol "else" = true)
    (hlead : r'.head?.any (·.isSymbol leftBrace) = true) (hother : Obtains stop .block r' [t] s') :
    Obtains stop (.conditional kind) (k :: o :: s)
      [.node kind ((k.span.join body.span).join (e.span.join t.span))
        [test, body, .node .elseStatement (e.span.join t.span) [t]]] s' := by
  have hif : r'.head?.any (·.isSymbol "if") = false := head_isSymbol_eq hlead "if"
  refine ⟨_, rfl, .succ ?_⟩
  filter_upwards [htest.out, hbody.out, hother.out] with n htest hbody hother
  unfold ifStatement
  refine .bind (.accept hk) (.bind (.accept ho) (.bind htest (.bind (.accept hc) (.bind hbody ?_))))
  exact .bind (.accept? he) (.sees_else hif (.bind hother (.bind .ret .ret)))

theorem ifElseIf (hk : k.isSymbol "if" = true) (ho : o.isSymbol "(" = true)
    (htest : Obtains stop .expression s [test] (c :: r)) (hc : c.isSymbol ")" = true)
    (hbody : Obtains stop .block r [body] (e :: r')) (he : e.isSymbol "else" = true)
    (hlead : r'.head?.any (·.isSymbol "if") = true) (hlink : Obtains stop (.conditional .elseIf) r' [t] s') :
    Obtains stop (.conditional kind) (k :: o :: s)
      [.node kind ((k.span.join body.span).join t.span) [test, body, t]] s' := by
  refine ⟨_, rfl, .succ ?_⟩
  filter_upwards [htest.out, hbody.out, hlink.out] with n htest hbody hlink
  unfold ifStatement
  refine .bind (.accept hk) (.bind (.accept ho) (.bind htest (.bind (.accept hc) (.bind hbody ?_))))
  exact .bind (.accept? he) (.sees_then hlead (.bind hlink .ret))

end Parser.Obtains

theorem Derives.head_of_arguments {us rest : List Token} {ts : List Tree} (h : Derives .arguments us ts rest) :
    (us ++ rest).head?.any (·.isSymbol "(") = true := by
  cases h with
  | arguments ho => exact ho

theorem Derives.head_of_block {us rest : List Token} {ts : List Tree} (h : Derives .block us ts rest) :
    (us ++ rest).head?.any (·.isSymbol leftBrace) = true := by
  cases h with
  | block ho => exact ho

theorem Derives.head_of_conditional {kind : Tree.Kind} {us rest : List Token} {ts : List Tree}
    (h : Derives (.conditional kind) us ts rest) : (us ++ rest).head?.any (·.isSymbol "if") = true := by
  cases h with
  | ifThen _ hk | ifElse _ hk | ifElseIf _ hk => exact hk

theorem Derives.heads_of_letIn {us rest : List Token} {ts : List Tree} (h : Derives .letIn us ts rest) :
    (us ++ rest).head?.any (·.isSymbol "let") = true ∧ (us ++ rest).tail.head?.any (·.text = leftBrace) = true := by
  cases h with
  | letIn hk ho =>
    simp only [Token.isSymbol, Bool.and_eq_true, beq_iff_eq] at ho
    exact ⟨hk, by simp [ho.2]⟩

theorem Derives.obtains (stop : Finish) {p : Phrase} {us rest : List Token} {ts : List Tree} (h : Derives p us ts rest) :
    Obtains stop p (us ++ rest) ts rest := by
  -- the tokens of a phrase are those of its parts, one after the other
  induction h with try simp only [List.append_assoc, List.cons_append, List.nil_append] at *
  | name hkind htext => exact ⟨_, hkind, htext, rfl, rfl⟩
  | operator htext ht => exact ⟨_, _, htext, ht, rfl, rfl⟩
  | noList h => exact .noList h
  | list _ _ h iht ihts => exact .list iht ihts h
  | noMore h => exact .noMore h
  | more hc _ _ iht ihts => exact .more hc iht ihts
  | noSequence h => exact .noSequence h
  | sequence ht _ hopen hend iht ihts =>
    exact .sequence (fun hp => by simp [ht.ne_nil (hp ▸ rfl)]) hopen iht (.accept?_none hend) ihts
  | semicolon _ hc _ hopen iht ihts => exact .sequence (by simp) hopen iht (.accept? hc) ihts
  | parameters ho _ hc ih => exact .parameters ho ih hc
  | arguments ho _ hc ih => exact .arguments ho ih hc
  | letDeclaration hk _ he _ ihname ihvalue => exact .declaration (.inl ⟨rfl, rfl⟩) hk ihname he ihvalue
  | constDeclaration hk _ he _ ihname ihvalue => exact .declaration (.inr ⟨rfl, rfl⟩) hk ihname he ihvalue
  | ofDeclaration _ hlet ih => exact .ofDeclaration ih hlet
  | letIn hk ho _ hc hi _ ihds ihbody => exact .letIn hk ho ihds hc hi ihbody
  | ofLetIn h ih => exact .ofLetIn ih h.heads_of_letIn.1 h.heads_of_letIn.2
  | function hk _ _ _ ihname ihparams ihbody => exact .function hk ihname ihparams ihbody
  | ofConditional h ih => exact .ofConditional ih h.head_of_conditional
  | ret hk _ ih => exact .ret hk ih
  | print hk _ ih => exact .print hk ih
  | ofBlock h ih => exact .ofBlock ih h.head_of_block
  | ofExpression _ hlead ih => exact .ofExpression ih hlead
  | ifThen _ hk ho _ hc _ hend ihtest ihbody => exact .ifThen hk ho ihtest hc ihbody hend
  | ifElse _ hk ho _ hc _ he hother ihtest ihbody ihother =>
    exact .ifElse hk ho ihtest hc ihbody he hother.head_of_block ihother
  | ifElseIf _ hk ho _ hc _ he hlink ihtest ihbody ihlink =>
    exact .ifElseIf hk ho ihtest hc ihbody he hlink.head_of_conditional ihlink
  | block ho _ hc ih => exact .block ho ih hc
  | lambdaBlock _ ha hbody ihparams ihbody => exact .lambdaBlock ihparams ha hbody.head_of_block ihbody
  | lambdaValue _ ha _ hopen ihparams ihvalue => exact .lambdaValue ihparams ha hopen ihvalue
  | ofLambda _ hlead ih => exact .ofLambda ih hlead
  | ofComparison _ hlead ih => exact .ofComparison ih hlead
  | comparison _ _ _ hend ihleft ihop ihright => exact .comparison ihleft ihop ihright hend
  | ofSum _ hend ih => exact .ofSum ih hend
  | sum _ _ _ hend ihleft ihop ihright => exact .sum ihleft ihop ihright hend
  | ofProduct _ hend ih => exact .ofProduct ih hend
  | product _ _ _ ihleft ihop ihright => exact .product ihleft ihop ihright
  | ofPower _ ih => exact .ofPower ih
  | power _ _ _ ihbase ihop ihexponent => exact .power ihbase ihop ihexponent
  | ofUnary _ hend ih => exact .ofUnary ih hend
  | negative hm hkind => exact .negative hm hkind
  | ofPrimary _ hlead ih => exact .ofPrimary ih hlead
  | number hkind => exact .number hkind
  | string hkind hclosed => exact .string hkind hclosed
  | ofName _ hend ih => exact .ofName ih hend
  | call _ hargs ihname ihargs => exact .call ihname hargs.head_of_arguments ihargs
  | access _ ho _ hc ihname ihindex => exact .access ihname ho ihindex hc
  | listLiteral ho _ hc hkind ih => exact .listLiteral ho ih hc hkind
  | parenthesized ho _ hc hkind ih => exact .parenthesized ho ih hc hkind

end Bies
