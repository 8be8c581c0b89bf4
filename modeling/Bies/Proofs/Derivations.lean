import Bies.Proofs.Grammar
import Bies.Proofs.TokenText

/-!
# Derivations

The grammar of the language as data, its derivations, and the tree of a derivation. A derivation keeps every
token; its tree leaves out brackets, commas, semicolons and keywords, and the phrases that hold one phrase only.
Every tree that is parsed is the tree of a derivation, whose yield is the tokens of the source.
-/

namespace Bies

/-! ## The grammar -/

inductive Terminal where
  /-- An operator, a bracket or a keyword. -/
  | symbol (text : String)
  | identifier
  | number
  | string

def Terminal.reads : Terminal → Token → Bool
  | .symbol text, t => t.isSymbol text
  | .identifier, t => t.kind == .identifier && !Token.keywords.contains t.text
  | .number, t => t.kind == .number
  | .string, t => t.kind == .string && Parser.isTerminatedString t.text.toList

inductive Nonterminal where
  | program
  | statement
  | letDecl
  | constDecl
  | letIn
  | funDecl
  | ifStmt
  | returnStmt
  | printStmt
  | block
  | exprStmt
  | params
  | args
  | expression
  | lambda
  | comparison
  | additive
  | term
  | power
  | unary
  /-- A name with an index or with arguments. -/
  | suffixed
  | primary

inductive Ebnf where
  | token (t : Terminal)
  | phrase (n : Nonterminal)
  | seq (parts : List Ebnf)
  | any (choices : List Ebnf)
  | optional (part : Ebnf)
  | many (part : Ebnf)

namespace Ebnf

def symbol (text : String) : Ebnf := .token (.symbol text)

def anySymbol (texts : List String) : Ebnf := .any (texts.map symbol)

def semicolon : Ebnf := .optional (symbol ";")

def bracketed (left : String) (item : Nonterminal) (right : String) : List Ebnf :=
  [symbol left, .optional (.phrase item), symbol right]

def branch : List Ebnf := [symbol "if", symbol "(", .phrase .expression, symbol ")", .phrase .block]

def separated (item : Ebnf) : Ebnf := .seq [item, .many (.seq [symbol ",", item])]

def operations (operand : Nonterminal) (operators : List String) : Ebnf :=
  .seq [.phrase operand, .many (.seq [anySymbol operators, .phrase operand])]

end Ebnf

open Ebnf in
def Nonterminal.rule : Nonterminal → Ebnf
  | .program => .many (.phrase .statement)
  | .statement =>
    .seq [.any (List.map .phrase [.letIn, .letDecl, .constDecl, .funDecl, .ifStmt, .returnStmt, .printStmt, .block,
      .exprStmt]), semicolon]
  | .letDecl => .seq [symbol "let", .token .identifier, symbol "=", .phrase .expression]
  | .constDecl => .seq [symbol "const", .token .identifier, symbol "=", .phrase .expression]
  | .letIn =>
    .seq [symbol "let", symbol leftBrace, .many (.seq [.any [.phrase .letDecl, .phrase .constDecl], semicolon]),
      symbol rightBrace, symbol "in", .phrase .block]
  | .funDecl => .seq (symbol "fun" :: .token .identifier :: bracketed "(" .params ")" ++ [.phrase .block])
  | .ifStmt =>
    .seq (branch ++ [.many (.seq (symbol "else" :: branch)), .optional (.seq [symbol "else", .phrase .block])])
  | .returnStmt => .seq [symbol "return", .phrase .expression]
  | .printStmt => .seq (symbol "print" :: bracketed "(" .args ")")
  | .block => .seq [symbol leftBrace, .many (.phrase .statement), symbol rightBrace]
  | .exprStmt => .phrase .expression
  | .params => separated (.token .identifier)
  | .args => separated (.phrase .expression)
  | .expression => .any [.phrase .lambda, .phrase .comparison]
  | .lambda => .seq (bracketed "(" .params ")" ++ [symbol "=>", .any [.phrase .block, .phrase .expression]])
  | .comparison =>
    .seq [.phrase .additive, .optional (.seq [anySymbol ["==", "!=", ">", ">=", "<", "<="], .phrase .additive])]
  | .additive => operations .term ["+", "-"]
  | .term => operations .power ["*", "/", "%"]
  | .power => .seq [.phrase .unary, .optional (.seq [symbol "**", .phrase .power])]
  | .unary => .any [.seq [symbol "-", .token .number], .phrase .suffixed]
  | .suffixed =>
    .any [.seq [.token .identifier, symbol "[", .phrase .expression, symbol "]"],
      .seq (.token .identifier :: bracketed "(" .args ")"), .phrase .primary]
  | .primary =>
    .any [.token .number, .token .string, .token .identifier, .seq (bracketed "[" .args "]"),
      .seq [symbol "(", .phrase .expression, symbol ")"]]

/-! ## Derivations -/

inductive Derivation where
  | token (t : Token)
  | phrase (n : Nonterminal) (parts : List Derivation)

/-- The parts read as the right side, and all phrases among them by their rules. -/
inductive Ebnf.Reads : Ebnf → List Derivation → Prop
  | token {t : Terminal} {u : Token} (h : t.reads u = true) : Reads (.token t) [.token u]
  | phrase {n : Nonterminal} {parts : List Derivation} (h : Reads n.rule parts) : Reads (.phrase n) [.phrase n parts]
  | nil : Reads (.seq []) []
  | cons {e : Ebnf} {es : List Ebnf} {xs ys : List Derivation} (h : Reads e xs) (hs : Reads (.seq es) ys) :
    Reads (.seq (e :: es)) (xs ++ ys)
  | any {e : Ebnf} {es : List Ebnf} {xs : List Derivation} (he : e ∈ es) (h : Reads e xs) : Reads (.any es) xs
  | absent {e : Ebnf} : Reads (.optional e) []
  | present {e : Ebnf} {xs : List Derivation} (h : Reads e xs) : Reads (.optional e) xs
  | none {e : Ebnf} : Reads (.many e) []
  | more {e : Ebnf} {xs ys : List Derivation} (h : Reads e xs) (hs : Reads (.many e) ys) : Reads (.many e) (xs ++ ys)

namespace Derivation

mutual

def yield : Derivation → List Token
  | .token t => [t]
  | .phrase _ parts => yieldAll parts

def yieldAll : List Derivation → List Token
  | [] => []
  | d :: rest => yield d ++ yieldAll rest

end

/-! ## Trees -/

def nameLeaf (t : Token) : Tree := .leaf .identifier t.span

def names : List Derivation → List Tree
  | .token t :: .token _ :: rest => nameLeaf t :: names rest
  | .token t :: _ => [nameLeaf t]
  | _ => []

def leafOf (t : Token) : Tree :=
  match t.kind with
  | .number => .leaf (Parser.numberKind t) t.span
  | .string => .leaf .string t.span
  | _ => nameLeaf t

def enclosed (kind : Tree.Kind) (left right : Token) (inside : List Tree) : Tree :=
  .node kind (left.span.join right.span) inside

def closing? : List Derivation → Option Token
  | [] => none
  | [.token t] => some t
  | _ :: rest => closing? rest

mutual

def tree? : Derivation → Option Tree
  | .token _ => none
  | .phrase n parts =>
    match n, parts with
    | .statement, d :: _ => tree? d
    | .letDecl, [.token k, .token name, _, value] =>
      (tree? value).map fun value => .node .letDeclaration (k.span.join value.span) [nameLeaf name, value]
    | .constDecl, [.token k, .token name, _, value] =>
      (tree? value).map fun value => .node .constDeclaration (k.span.join value.span) [nameLeaf name, value]
    | .letIn, .token k :: rest =>
      (trees? rest).bind fun ts => ts.getLast?.map fun body => .node .letIn (k.span.join body.span) ts
    | .funDecl, [.token k, .token name, .token left, .token right, body] =>
      (tree? body).map fun body =>
        .node .functionDeclaration (k.span.join body.span) [nameLeaf name, enclosed .parameterList left right [], body]
    | .funDecl, [.token k, .token name, .token left, .phrase _ params, .token right, body] =>
      (tree? body).map fun body =>
        .node .functionDeclaration (k.span.join body.span)
          [nameLeaf name, enclosed .parameterList left right (names params), body]
    | .ifStmt, parts => conditional? .ifStatement parts
    | .returnStmt, [.token k, value] =>
      (tree? value).map fun value => .node .returnStatement (k.span.join value.span) [value]
    | .printStmt, [.token k, .token left, .token right] =>
      let args := enclosed .argumentList left right []
      some (.node .printStatement (k.span.join args.span) [args])
    | .printStmt, [.token k, .token left, .phrase _ args, .token right] =>
      (trees? args).map fun args =>
        let args := enclosed .argumentList left right args
        .node .printStatement (k.span.join args.span) [args]
    | .block, .token left :: rest =>
      (trees? rest).bind fun ts => (closing? rest).map fun right => enclosed .block left right ts
    | .exprStmt, [value] => (tree? value).map fun value => .covering .expressionStatement [value]
    | .expression, [d] => tree? d
    | .lambda, [.token left, .token right, _, body] =>
      (tree? body).map fun body =>
        let params := enclosed .parameterList left right []
        .node .lambda (params.span.join body.span) [params, body]
    | .lambda, [.token left, .phrase _ params, .token right, _, body] =>
      (tree? body).map fun body =>
        let params := enclosed .parameterList left right (names params)
        .node .lambda (params.span.join body.span) [params, body]
    | .comparison, d :: rest => (tree? d).bind fun left => operations? .comparison left rest
    | .additive, d :: rest => (tree? d).bind fun left => operations? .arithmetic left rest
    | .term, d :: rest => (tree? d).bind fun left => operations? .arithmetic left rest
    | .power, d :: rest => (tree? d).bind fun left => operations? .arithmetic left rest
    | .unary, [.token minus, .token t] => some (.leaf (Parser.numberKind t) (minus.span.join t.span))
    | .unary, [d] => tree? d
    | .suffixed, [.token name, .token left, .token right] =>
      some (.covering .call [nameLeaf name, enclosed .argumentList left right []])
    | .suffixed, [.token name, .token left, .phrase .args args, .token right] =>
      (trees? args).map fun args => .covering .call [nameLeaf name, enclosed .argumentList left right args]
    | .suffixed, [.token name, _, index, .token right] =>
      (tree? index).map fun index => .node .listAccess (name.span.join right.span) [nameLeaf name, index]
    | .suffixed, [d] => tree? d
    | .primary, [.token t] => some (leafOf t)
    | .primary, [.token left, .token right] => some (enclosed .listLiteral left right [])
    | .primary, [.token left, .phrase .args items, .token right] =>
      (trees? items).map fun items => enclosed .listLiteral left right items
    | .primary, [_, inner, _] => tree? inner
    | _, _ => none

def trees? : List Derivation → Option (List Tree)
  | [] => some []
  | .token _ :: rest => trees? rest
  | d :: rest => (tree? d).bind fun t => (trees? rest).map (t :: ·)

def operations? (kind : Tree.Kind) (left : Tree) : List Derivation → Option Tree
  | [] => some left
  | .token op :: d :: rest =>
    (tree? d).bind fun right => operations? kind (.covering kind [left, .leaf .operator op.span, right]) rest
  | _ => none

/-- The branches of a condition, each of which holds those that follow its `else`. -/
def conditional? (kind : Tree.Kind) : List Derivation → Option Tree
  | .token k :: _ :: test :: _ :: body :: rest =>
    (tree? test).bind fun test => (tree? body).bind fun body =>
      match rest with
      | [] => some (.node kind (k.span.join body.span) [test, body])
      | [.token e, other] =>
        (tree? other).map fun other =>
          let other := .node .elseStatement (e.span.join other.span) [other]
          .node kind ((k.span.join body.span).join other.span) [test, body, other]
      | _ :: rest =>
        (conditional? .elseIf rest).map fun link =>
          .node kind ((k.span.join body.span).join link.span) [test, body, link]
  | _ => none

end

theorem yieldAll_append (xs ys : List Derivation) : yieldAll (xs ++ ys) = yieldAll xs ++ yieldAll ys := by
  induction xs with
  | nil => rfl
  | cons x xs ih => rw [List.cons_append, yieldAll, yieldAll, ih, List.append_assoc]

theorem trees?_append (xs ys : List Derivation) :
    trees? (xs ++ ys) = (trees? xs).bind fun ts => (trees? ys).map (ts ++ ·) := by
  induction xs with
  | nil => cases h : trees? ys <;> simp [trees?, h]
  | cons x xs ih =>
    cases x with
    | token t => simpa only [List.cons_append, trees?] using ih
    | phrase n parts =>
      simp only [List.cons_append, trees?, ih]
      cases tree? (.phrase n parts) <;> cases trees? xs <;> cases trees? ys <;> simp

theorem closing?_concat (xs : List Derivation) (t : Token) : closing? (xs ++ [.token t]) = some t := by
  induction xs with
  | nil => rfl
  | cons x xs ih =>
    obtain ⟨y, ys, hy⟩ : ∃ y ys, xs ++ [.token t] = y :: ys := List.exists_cons_of_ne_nil (by simp)
    rw [hy] at ih
    rw [List.cons_append, hy]
    cases x <;> exact ih

end Derivation

/-! ## Phrases -/

open Bies.Derivation Ebnf

def Nonterminal.Forms (n : Nonterminal) (us : List Token) (t : Tree) : Prop :=
  ∃ parts, n.rule.Reads parts ∧ yieldAll parts = us ∧ tree? (.phrase n parts) = some t

namespace Ebnf

section
variable {text : String} {t : Token} {e : Ebnf} {es : List Ebnf} {ds : List Derivation}

theorem Reads.symbol (h : t.isSymbol text = true) : (symbol text).Reads [.token t] :=
  .token h

theorem Reads.next {d : Derivation} (h : e.Reads [d])
    (hs : (Ebnf.seq es).Reads ds) : (Ebnf.seq (e :: es)).Reads (d :: ds) :=
  .cons h hs

theorem Reads.last (h : e.Reads ds) : (Ebnf.seq [e]).Reads ds := by
  simpa using Reads.cons h .nil

theorem Reads.anySymbol {texts : List String} (htext : text ∈ texts)
    (h : t.isSymbol text = true) : (anySymbol texts).Reads [.token t] :=
  .any (List.mem_map_of_mem htext) (.symbol h)

theorem Reads.append {fs : List Ebnf} {xs : List Derivation} (h : (Ebnf.seq es).Reads ds)
    (hs : (Ebnf.seq fs).Reads xs) : (Ebnf.seq (es ++ fs)).Reads (ds ++ xs) := by
  induction es generalizing ds with
  | nil =>
    cases h
    exact hs
  | cons e es ih =>
    cases h with
    | cons he hes =>
      rw [List.append_assoc]
      exact .cons he (ih hes)

end

def Gathers (e : Ebnf) (us : List Token) (ts : List Tree) : Prop :=
  ∃ parts, (Ebnf.many e).Reads parts ∧ yieldAll parts = us ∧ trees? parts = some ts

namespace Gathers

variable {e : Ebnf} {us vs : List Token} {ts : List Tree}

theorem none : e.Gathers [] [] := ⟨[], .none, rfl, rfl⟩

theorem more {t : Tree} (parts : List Derivation) (h : e.Reads parts) (hus : yieldAll parts = us)
    (ht : trees? parts = some [t]) (hs : e.Gathers vs ts) : e.Gathers (us ++ vs) (t :: ts) := by
  obtain ⟨rest, hrest, rfl, hts⟩ := hs
  refine ⟨parts ++ rest, .more h hrest, by rw [yieldAll_append, hus], ?_⟩
  rw [trees?_append, ht, hts]
  rfl

end Gathers

theorem exists_semicolon {end? : Option Token} (hend : ∀ c ∈ end?, c.isSymbol ";" = true) :
    ∃ ds, semicolon.Reads ds ∧ yieldAll ds = end?.toList ∧ trees? ds = some [] := by
  cases end? with
  | none => exact ⟨[], .absent, rfl, rfl⟩
  | some c => exact ⟨[.token c], .present (.symbol (hend c rfl)), rfl, rfl⟩

/-- The token is a name, and its leaf. -/
def IsName (us : List Token) (t : Tree) : Prop := ∃ u, us = [u] ∧ t = nameLeaf u ∧ Terminal.identifier.reads u = true

def IsOperator (e : Ebnf) (us : List Token) (t : Tree) : Prop :=
  ∃ u, us = [u] ∧ t = .leaf .operator u.span ∧ e.Reads [.token u]

def Lists (n : Nonterminal) (items : List Derivation → Option (List Tree)) (us : List Token) (ts : List Tree) : Prop :=
  us = [] ∧ ts = [] ∨ ∃ parts, n.rule.Reads parts ∧ yieldAll parts = us ∧ items parts = some ts

def Brackets (left right : String) (kind : Tree.Kind) (n : Nonterminal) (items : List Derivation → Option (List Tree))
    (us : List Token) (t : Tree) : Prop :=
  ∃ o c ds ts, (Ebnf.seq (bracketed left n right)).Reads (.token o :: (ds ++ [.token c])) ∧
    yieldAll (.token o :: (ds ++ [.token c])) = us ∧ t = enclosed kind o c ts ∧
    (ds = [] ∧ ts = [] ∨ ∃ parts, ds = [.phrase n parts] ∧ items parts = some ts)

theorem Lists.brackets {left right : String} {n : Nonterminal} {items : List Derivation → Option (List Tree)}
    {o c : Token} {us : List Token} {ts : List Tree} (h : Lists n items us ts) (kind : Tree.Kind)
    (ho : o.isSymbol left = true) (hc : c.isSymbol right = true) :
    Brackets left right kind n items (o :: (us ++ [c])) (enclosed kind o c ts) := by
  rcases h with ⟨rfl, rfl⟩ | ⟨parts, hparts, rfl, hts⟩
  · exact ⟨o, c, [], [], .next (.symbol ho) (.cons .absent (.last (.symbol hc))), rfl, rfl, .inl ⟨rfl, rfl⟩⟩
  · refine ⟨o, c, [.phrase n parts], ts, .next (.symbol ho) (.next (.present (.phrase hparts)) (.last (.symbol hc))),
      ?_, rfl, .inr ⟨parts, rfl, hts⟩⟩
    simp [yieldAll, yield]

end Ebnf

namespace Nonterminal.Forms

variable {k o c e a : Token} {us vs ws : List Token}

section
variable {t name : Tree} {ts : List Tree}

theorem reads {n : Nonterminal} (h : n.Forms us t) :
    ∃ d, (Ebnf.phrase n).Reads [d] ∧ yield d = us ∧ tree? d = some t := by
  obtain ⟨parts, hparts, hus, ht⟩ := h
  exact ⟨.phrase n parts, .phrase hparts, hus, ht⟩

/-! ### Lists -/

theorem separated (ht : Forms .expression us t)
    (hts : (Ebnf.seq [symbol ",", .phrase .expression]).Gathers vs ts) : Lists .args trees? (us ++ vs) (t :: ts) := by
  obtain ⟨parts, hparts, rfl, ht⟩ := ht
  obtain ⟨more, hmore, rfl, hts⟩ := hts
  refine .inr ⟨.phrase .expression parts :: more, .next (.phrase hparts) (.last hmore), rfl, ?_⟩
  rw [trees?, ht, hts]
  · rfl
  · simp

theorem comma (hc : c.isSymbol "," = true) (ht : Forms .expression us t)
    (hts : (Ebnf.seq [symbol ",", .phrase .expression]).Gathers vs ts) :
    (Ebnf.seq [symbol ",", .phrase .expression]).Gathers (c :: (us ++ vs)) (t :: ts) := by
  obtain ⟨parts, hparts, rfl, ht⟩ := ht
  rw [← List.cons_append]
  refine .more [.token c, .phrase .expression parts] (.next (.symbol hc) (.last (.phrase hparts))) ?_ ?_ hts
  · simp [yieldAll, yield]
  · simp [trees?, ht]

/-! ### Expressions -/

theorem choice {n m : Nonterminal} {es : List Ebnf} (h : m.Forms us t) (hrule : n.rule = .any es)
    (hm : .phrase m ∈ es) (htree : ∀ parts, tree? (.phrase n [.phrase m parts]) = tree? (.phrase m parts)) :
    n.Forms us t := by
  obtain ⟨parts, hparts, rfl, ht⟩ := h
  exact ⟨[.phrase m parts], hrule ▸ .any hm (.phrase hparts), by simp [yieldAll, yield], (htree parts).trans ht⟩

theorem ofLambda (h : Forms .lambda us t) : Forms .expression us t := h.choice rfl (by simp) fun _ => rfl

theorem ofComparison (h : Forms .comparison us t) : Forms .expression us t := h.choice rfl (by simp) fun _ => rfl

theorem unary (h : Forms .suffixed us t) : Forms .unary us t := h.choice rfl (by simp) fun _ => rfl

theorem negative {m t : Token} (hm : m.isSymbol "-" = true) (ht : Terminal.number.reads t = true) :
    Forms .unary [m, t] (.leaf (Parser.numberKind t) (m.span.join t.span)) :=
  ⟨[.token m, .token t], .any (by simp) (.next (.symbol hm) (.last (.token ht))), rfl, rfl⟩

theorem suffixed (h : Forms .primary us t) : Forms .suffixed us t := h.choice rfl (by simp) fun _ => rfl

theorem literal {x : Terminal} {u : Token} (hx : x = .number ∨ x = .string ∨ x = .identifier)
    (hu : x.reads u = true) (ht : leafOf u = t) : Forms .suffixed [u] t := by
  refine suffixed ⟨[.token u], ?_, rfl, congrArg some ht⟩
  rcases hx with rfl | rfl | rfl <;> exact .any (by simp) (.token hu)

theorem ofName (h : IsName us t) : Forms .suffixed us t := by
  obtain ⟨u, rfl, rfl, hreads⟩ := h
  have hkind : u.kind = .identifier := by simp [Terminal.reads] at hreads; exact hreads.1
  exact literal (.inr (.inr rfl)) hreads (by simp [leafOf, hkind])

theorem parenthesized (ho : o.isSymbol "(" = true) (h : Forms .expression us t) (hc : c.isSymbol ")" = true) :
    Forms .suffixed (o :: (us ++ [c])) t := by
  obtain ⟨parts, hparts, rfl, ht⟩ := h
  refine suffixed ⟨[.token o, .phrase .expression parts, .token c],
    .any (by simp) (.next (.symbol ho) (.next (.phrase hparts) (.last (.symbol hc)))), ?_, ht⟩
  simp [yieldAll, yield]

theorem listLiteral (h : Brackets "[" "]" .listLiteral .args trees? us t) : Forms .suffixed us t := by
  obtain ⟨o, c, ds, ts, hreads, rfl, rfl, hds⟩ := h
  refine suffixed ⟨_, .any (e := .seq (bracketed "[" .args "]")) (by simp) hreads, rfl, ?_⟩
  rcases hds with ⟨rfl, rfl⟩ | ⟨parts, rfl, hts⟩
  · rfl
  · exact congrArg (Option.map _) hts

theorem call (hname : IsName us name) (h : Brackets "(" ")" .argumentList .args trees? vs t) :
    Forms .suffixed (us ++ vs) (.covering .call [name, t]) := by
  obtain ⟨u, rfl, rfl, hname⟩ := hname
  obtain ⟨o, c, ds, ts, hreads, rfl, rfl, hds⟩ := h
  refine ⟨.token u :: .token o :: (ds ++ [.token c]),
    .any (e := .seq (.token .identifier :: bracketed "(" .args ")")) (by simp) (.next (.token hname) hreads), rfl, ?_⟩
  rcases hds with ⟨rfl, rfl⟩ | ⟨parts, rfl, hts⟩
  · rfl
  · exact congrArg (Option.map _) hts

theorem access {index : Tree} (hname : IsName us name) (ho : o.isSymbol "[" = true) (h : Forms .expression vs index)
    (hc : c.isSymbol "]" = true) :
    Forms .suffixed (us ++ o :: (vs ++ [c])) (.node .listAccess (name.span.join c.span) [name, index]) := by
  obtain ⟨u, rfl, rfl, hname⟩ := hname
  obtain ⟨parts, hparts, rfl, ht⟩ := h
  refine ⟨[.token u, .token o, .phrase .expression parts, .token c],
    .any (by simp) (.next (.token hname) (.next (.symbol ho) (.next (.phrase hparts) (.last (.symbol hc))))), ?_, ?_⟩
  · simp [yieldAll, yield]
  · exact congrArg (Option.map _) ht

end

end Nonterminal.Forms

/-! ### Operators -/

section Operators

variable {n m l : Nonterminal} {e : Ebnf} {kind : Tree.Kind} {us vs ws : List Token} {left op right : Tree}

structure Nonterminal.Single (n m l : Nonterminal) (e : Ebnf) (kind : Tree.Kind) : Prop where
  rule : n.rule = .seq [.phrase m, .optional (.seq [e, .phrase l])]
  tree : ∀ d rest, tree? (.phrase n (d :: rest)) = (tree? d).bind fun left => operations? kind left rest

structure Nonterminal.Repeated (n m : Nonterminal) (texts : List String) (kind : Tree.Kind) : Prop where
  rule : n.rule = operations m texts
  tree : ∀ d rest, tree? (.phrase n (d :: rest)) = (tree? d).bind fun left => operations? kind left rest

theorem Nonterminal.Single.operand (hn : n.Single m l e kind) (h : m.Forms us left) : n.Forms us left := by
  obtain ⟨parts, hparts, rfl, ht⟩ := h
  refine ⟨[.phrase m parts], ?_, by simp [yieldAll, yield], ?_⟩
  · rw [hn.rule]
    exact .next (.phrase hparts) (.last .absent)
  · rw [hn.tree, ht]
    rfl

theorem Nonterminal.Single.operation (hn : n.Single m l e kind) (hleft : m.Forms us left) (hop : e.IsOperator vs op)
    (hright : l.Forms ws right) : n.Forms (us ++ (vs ++ ws)) (.covering kind [left, op, right]) := by
  obtain ⟨ls, hls, rfl, hleft⟩ := hleft
  obtain ⟨u, rfl, rfl, hop⟩ := hop
  obtain ⟨rs, hrs, rfl, hright⟩ := hright
  refine ⟨[.phrase m ls, .token u, .phrase l rs], ?_, by simp [yieldAll, yield], ?_⟩
  · rw [hn.rule]
    exact .next (.phrase hls) (.last (.present (.next hop (.last (.phrase hrs)))))
  · rw [hn.tree, hleft, Option.bind_some, operations?, hright]
    rfl

def Derivation.links (ops : List (Token × Derivation)) : List Derivation := ops.flatMap fun p => [.token p.1, p.2]

theorem Derivation.operations?_links_append (ops : List (Token × Derivation)) (rest : List Derivation)
    (left : Tree) :
    operations? kind left (links ops ++ rest) = (operations? kind left (links ops)).bind
      fun t => operations? kind t rest := by
  induction ops generalizing left with
  | nil => rfl
  | cons p ops ih =>
    have hlinks : links (p :: ops) = .token p.1 :: p.2 :: links ops := rfl
    simp only [hlinks, List.cons_append, operations?, ih]
    cases tree? p.2 <;> rfl

structure Derivation.Chained (m : Nonterminal) (texts : List String) (d : Derivation)
    (ops : List (Token × Derivation)) : Prop where
  first : (Ebnf.phrase m).Reads [d]
  more : ∀ p ∈ ops, (anySymbol texts).Reads [.token p.1] ∧ (Ebnf.phrase m).Reads [p.2]

theorem Derivation.Chained.reads {texts : List String} {d : Derivation} {ops : List (Token × Derivation)}
    (h : Chained m texts d ops) : (operations m texts).Reads (d :: links ops) := by
  refine .next h.first (.last ?_)
  have hmore := h.more
  clear h
  induction ops with
  | nil => exact .none
  | cons p ops ih =>
    obtain ⟨hop, hd⟩ := hmore p (by simp)
    exact .more (.next hop (.last hd)) (ih fun q hq => hmore q (by simp [hq]))

def Nonterminal.Chains (m : Nonterminal) (texts : List String) (kind : Tree.Kind) (us : List Token) (t : Tree) : Prop :=
  ∃ d ops, Chained m texts d ops ∧ yieldAll (d :: links ops) = us ∧
    ((tree? d).bind fun left => operations? kind left (links ops)) = some t

namespace Nonterminal.Chains

variable {texts : List String}

theorem operand (h : m.Forms us left) : m.Chains texts kind us left := by
  obtain ⟨d, hd, rfl, ht⟩ := h.reads
  refine ⟨d, [], ⟨hd, by simp⟩, by simp [yieldAll, links], ?_⟩
  rw [ht]
  rfl

theorem operation (hleft : m.Chains texts kind us left) (hop : (anySymbol texts).IsOperator vs op)
    (hright : m.Forms ws right) : m.Chains texts kind (us ++ (vs ++ ws)) (.covering kind [left, op, right]) := by
  obtain ⟨d, ops, hops, rfl, hleft⟩ := hleft
  obtain ⟨u, rfl, rfl, hop⟩ := hop
  obtain ⟨x, hx, rfl, htree⟩ := hright.reads
  have hlinks : links (ops ++ [(u, x)]) = links ops ++ [.token u, x] := by simp [links]
  refine ⟨d, ops ++ [(u, x)], ⟨hops.first, ?_⟩, ?_, ?_⟩
  · intro p hp
    rcases List.mem_append.mp hp with hp | hp
    · exact hops.more p hp
    · cases List.mem_singleton.mp hp
      exact ⟨hop, hx⟩
  · rw [hlinks, ← List.cons_append, yieldAll_append]
    simp [yieldAll, yield]
  · cases hd : tree? d with
    | none => rw [hd] at hleft; cases hleft
    | some t =>
      rw [hd, Option.bind_some] at hleft
      rw [Option.bind_some, hlinks, operations?_links_append, hleft, Option.bind_some, operations?, htree]
      rfl

theorem forms (hn : n.Repeated m texts kind) (h : m.Chains texts kind us left) : n.Forms us left := by
  obtain ⟨d, ops, hops, hus, ht⟩ := h
  refine ⟨d :: links ops, ?_, hus, ?_⟩
  · rw [hn.rule]
    exact hops.reads
  · rw [hn.tree, ht]

end Nonterminal.Chains

theorem Ebnf.IsOperator.power (h : (anySymbol ["**"]).IsOperator us op) : (symbol "**").IsOperator us op := by
  obtain ⟨u, hus, hop, hreads⟩ := h
  refine ⟨u, hus, hop, ?_⟩
  cases hreads with
  | any he h => cases List.mem_singleton.mp he; exact h

end Operators

namespace Nonterminal.Forms

variable {k o c e a : Token} {us vs ws : List Token} {name body value : Tree}

/-! ### Functions -/

def parameters (parts : List Derivation) : Option (List Tree) := some (names parts)

section
variable {n : Nonterminal} {params t : Tree} {ts : List Tree}

theorem lambda (hn : n = .block ∨ n = .expression)
    (hparams : Brackets "(" ")" .parameterList .params parameters us params) (ha : a.isSymbol "=>" = true)
    (hbody : n.Forms vs body) :
    Forms .expression (us ++ a :: vs) (.node .lambda (params.span.join body.span) [params, body]) := by
  obtain ⟨bs, hbs, rfl, hbody⟩ := hbody
  have hreads : (Ebnf.seq [symbol "=>", .any [.phrase .block, .phrase .expression]]).Reads
      [.token a, .phrase n bs] :=
    .next (.symbol ha) (.last (.any (by rcases hn with rfl | rfl <;> simp) (.phrase hbs)))
  obtain ⟨o, c, ds, ts, hparams, rfl, rfl, hds⟩ := hparams
  refine ofLambda ⟨_, hparams.append hreads, by simp [yieldAll, yield, yieldAll_append], ?_⟩
  rcases hds with ⟨rfl, rfl⟩ | ⟨parts, rfl, ⟨⟩⟩ <;> exact congrArg (Option.map _) hbody

theorem function (hk : k.isSymbol "fun" = true) (hname : IsName us name)
    (hparams : Brackets "(" ")" .parameterList .params parameters vs params) (hbody : Forms .block ws body) :
    Forms .funDecl (k :: (us ++ (vs ++ ws)))
      (.node .functionDeclaration (k.span.join body.span) [name, params, body]) := by
  obtain ⟨u, rfl, rfl, hname⟩ := hname
  obtain ⟨bs, hbs, rfl, hbody⟩ := hbody
  obtain ⟨o, c, ds, ts, hparams, rfl, rfl, hds⟩ := hparams
  refine ⟨_, .next (.symbol hk) (.next (.token hname) (hparams.append (.last (.phrase hbs)))),
    by simp [yieldAll, yield, yieldAll_append], ?_⟩
  rcases hds with ⟨rfl, rfl⟩ | ⟨parts, rfl, ⟨⟩⟩ <;> exact congrArg (Option.map _) hbody

/-! ### Declarations and statements -/

theorem declares {kind : Tree.Kind} {word : String}
    (hn : (n, kind, word) = (.letDecl, .letDeclaration, "let") ∨
      (n, kind, word) = (.constDecl, .constDeclaration, "const"))
    (hk : k.isSymbol word = true) (hname : IsName us name) (he : e.isSymbol "=" = true)
    (hvalue : Forms .expression vs value) :
    n.Forms (k :: (us ++ e :: vs)) (.node kind (k.span.join value.span) [name, value]) := by
  obtain ⟨u, rfl, rfl, hname⟩ := hname
  obtain ⟨d, hd, rfl, ht⟩ := hvalue.reads
  refine ⟨[.token k, .token u, .token e, d], ?_, by simp [yieldAll, yield], ?_⟩
  · rcases hn with hn | hn <;> cases hn <;>
      exact .next (.symbol hk) (.next (.token hname) (.next (.symbol he) (.last hd)))
  · rcases hn with hn | hn <;> cases hn <;> exact congrArg (Option.map _) ht

theorem letIn {i : Token} (hk : k.isSymbol "let" = true) (ho : o.isSymbol leftBrace = true)
    (hts : (Ebnf.seq [.any [.phrase .letDecl, .phrase .constDecl], semicolon]).Gathers us ts)
    (hc : c.isSymbol rightBrace = true) (hi : i.isSymbol "in" = true) (hbody : Forms .block vs body) :
    Forms .letIn (k :: o :: (us ++ c :: i :: vs)) (.node .letIn (k.span.join body.span) (ts ++ [body])) := by
  obtain ⟨ds, hds, rfl, hts⟩ := hts
  obtain ⟨bs, hbs, rfl, hbody⟩ := hbody
  have htrees : trees? (ds ++ [.token c, .token i, .phrase .block bs]) = some (ts ++ [body]) := by
    rw [trees?_append, hts]
    simp [trees?, hbody]
  refine ⟨.token k :: .token o :: (ds ++ [.token c, .token i, .phrase .block bs]), ?_, ?_, ?_⟩
  · exact .next (.symbol hk) (.next (.symbol ho)
      (.cons hds (.next (.symbol hc) (.next (.symbol hi) (.last (.phrase hbs))))))
  · simp [yieldAll, yield, yieldAll_append]
  · refine (congrArg (Option.bind · _) htrees).trans ?_
    simp

theorem block (ho : o.isSymbol leftBrace = true) (hts : (Ebnf.phrase .statement).Gathers us ts)
    (hc : c.isSymbol rightBrace = true) :
    Forms .block (o :: (us ++ [c])) (.node .block (o.span.join c.span) ts) := by
  obtain ⟨ds, hds, rfl, hts⟩ := hts
  have htrees : trees? (ds ++ [.token c]) = some ts := by
    rw [trees?_append, hts]
    simp [trees?]
  refine ⟨.token o :: (ds ++ [.token c]), .next (.symbol ho) (.cons hds (.last (.symbol hc))), ?_, ?_⟩
  · simp [yieldAll, yield, yieldAll_append]
  · refine (congrArg (Option.bind · _) htrees).trans ?_
    rw [Option.bind_some, closing?_concat]
    rfl

theorem ret (hk : k.isSymbol "return" = true) (hvalue : Forms .expression us value) :
    Forms .returnStmt (k :: us) (.node .returnStatement (k.span.join value.span) [value]) := by
  obtain ⟨d, hd, rfl, ht⟩ := hvalue.reads
  refine ⟨[.token k, d], .next (.symbol hk) (.last hd), by simp [yieldAll, yield], ?_⟩
  exact congrArg (Option.map _) ht

theorem print {args : Tree} (hk : k.isSymbol "print" = true)
    (hargs : Brackets "(" ")" .argumentList .args trees? us args) :
    Forms .printStmt (k :: us) (.node .printStatement (k.span.join args.span) [args]) := by
  obtain ⟨o, c, ds, ts, hreads, rfl, rfl, hds⟩ := hargs
  refine ⟨_, .next (.symbol hk) hreads, rfl, ?_⟩
  rcases hds with ⟨rfl, rfl⟩ | ⟨parts, rfl, hts⟩
  · rfl
  · exact congrArg (Option.map _) hts

theorem ofExpression (hvalue : Forms .expression us value) :
    Forms .exprStmt us (.covering .expressionStatement [value]) := by
  obtain ⟨d, hd, rfl, ht⟩ := hvalue.reads
  refine ⟨[d], hd, by simp [yieldAll], ?_⟩
  exact congrArg (Option.map _) ht

def statements : List Nonterminal :=
  [.letIn, .letDecl, .constDecl, .funDecl, .ifStmt, .returnStmt, .printStmt, .block, .exprStmt]

theorem statement (end? : Option Token) (hn : n ∈ statements)
    (h : n.Forms us t) (hend : ∀ c ∈ end?, c.isSymbol ";" = true) (hts : (Ebnf.phrase .statement).Gathers vs ts) :
    (Ebnf.phrase .statement).Gathers (us ++ (end?.toList ++ vs)) (t :: ts) := by
  obtain ⟨parts, hparts, rfl, ht⟩ := h
  have hkind : (Ebnf.any (statements.map .phrase)).Reads [.phrase n parts] :=
    .any (List.mem_map_of_mem hn) (.phrase hparts)
  obtain ⟨ds, hds, hyield, -⟩ := exists_semicolon hend
  rw [← List.append_assoc]
  refine .more [.phrase .statement (.phrase n parts :: ds)] (.phrase (.next hkind (.last hds))) ?_ ?_ hts
  · simp [yieldAll, yield, hyield]
  · exact congrArg (Option.bind · _) ht

theorem declaration (end? : Option Token) (hn : n = .letDecl ∨ n = .constDecl) (h : n.Forms us t)
    (hend : ∀ c ∈ end?, c.isSymbol ";" = true)
    (hts : (Ebnf.seq [.any [.phrase .letDecl, .phrase .constDecl], semicolon]).Gathers vs ts) :
    (Ebnf.seq [.any [.phrase .letDecl, .phrase .constDecl],
      semicolon]).Gathers (us ++ (end?.toList ++ vs)) (t :: ts) := by
  obtain ⟨parts, hparts, rfl, ht⟩ := h
  have hkind : (Ebnf.any [.phrase .letDecl, .phrase .constDecl]).Reads [.phrase n parts] :=
    .any (by rcases hn with rfl | rfl <;> simp) (.phrase hparts)
  obtain ⟨ds, hds, hyield, htrees⟩ := exists_semicolon hend
  rw [← List.append_assoc]
  refine .more (.phrase n parts :: ds) (.next hkind (.last hds)) ?_ ?_ hts
  · simp [yieldAll, yield, hyield]
  · simp [trees?, ht, htrees]

end

end Nonterminal.Forms

/-! ### Conditions -/

def Derivation.Branches (kind : Tree.Kind) (us : List Token) (t : Tree) : Prop :=
  ∃ (k o c : Token) (test body : Derivation) (links other : List Derivation),
    (Ebnf.seq branch).Reads [.token k, .token o, test, .token c, body] ∧
    (Ebnf.many (.seq (symbol "else" :: branch))).Reads links ∧
    (Ebnf.optional (.seq [symbol "else", .phrase .block])).Reads other ∧
    yieldAll (.token k :: .token o :: test :: .token c :: body :: (links ++ other)) = us ∧
    conditional? kind (.token k :: .token o :: test :: .token c :: body :: (links ++ other)) = some t

namespace Derivation.Branches

variable {kind : Tree.Kind} {k o c e : Token} {us vs ws : List Token} {test body : Tree}

theorem forms {t : Tree} (h : Branches .ifStatement us t) : Nonterminal.Forms .ifStmt us t := by
  obtain ⟨k, o, c, test, body, links, other, hbranch, hlinks, hother, hus, ht⟩ := h
  refine ⟨_, ?_, hus, ht⟩
  have := hbranch.append (.cons hlinks (.last hother))
  exact this

section
variable (hk : k.isSymbol "if" = true) (ho : o.isSymbol "(" = true) (htest : Nonterminal.Forms .expression us test)
  (hc : c.isSymbol ")" = true) (hbody : Nonterminal.Forms .block vs body)

include hk ho htest hc hbody

theorem branch_reads : ∃ x y, (Ebnf.seq branch).Reads [.token k, .token o, x, .token c, y] ∧ yield x = us ∧
    yield y = vs ∧ tree? x = some test ∧ tree? y = some body := by
  obtain ⟨x, hx, hus, htest⟩ := htest.reads
  obtain ⟨y, hy, hvs, hbody⟩ := hbody.reads
  exact ⟨x, y, .next (.symbol hk) (.next (.symbol ho) (.next hx (.next (.symbol hc) (.last hy)))),
    hus, hvs, htest, hbody⟩

theorem ifThen : Branches kind (k :: o :: (us ++ c :: vs)) (.node kind (k.span.join body.span) [test, body]) := by
  obtain ⟨x, y, hreads, rfl, rfl, hx, hy⟩ := branch_reads hk ho htest hc hbody
  refine ⟨k, o, c, x, y, [], [], hreads, .none, .absent, by simp [yieldAll, yield], ?_⟩
  simp [conditional?, hx, hy]

theorem ifElse {other : Tree} (he : e.isSymbol "else" = true) (hother : Nonterminal.Forms .block ws other) :
    Branches kind (k :: o :: (us ++ c :: (vs ++ e :: ws)))
      (.node kind ((k.span.join body.span).join (e.span.join other.span))
        [test, body, .node .elseStatement (e.span.join other.span) [other]]) := by
  obtain ⟨x, y, hreads, rfl, rfl, hx, hy⟩ := branch_reads hk ho htest hc hbody
  obtain ⟨z, hz, rfl, htree⟩ := hother.reads
  refine ⟨k, o, c, x, y, [], [.token e, z], hreads, .none, .present (.next (.symbol he) (.last hz)),
    by simp [yieldAll, yield], ?_⟩
  rw [conditional?, hx, Option.bind_some, hy, Option.bind_some]
  exact congrArg (Option.map _) htree

theorem ifElseIf {link : Tree} (he : e.isSymbol "else" = true) (hlink : Branches .elseIf ws link) :
    Branches kind (k :: o :: (us ++ c :: (vs ++ e :: ws)))
      (.node kind ((k.span.join body.span).join link.span) [test, body, link]) := by
  obtain ⟨x, y, hreads, rfl, rfl, hx, hy⟩ := branch_reads hk ho htest hc hbody
  obtain ⟨k', o', c', x', y', links, other, hbranch, hlinks, hother, rfl, hlink⟩ := hlink
  refine ⟨k, o, c, x, y, .token e :: .token k' :: .token o' :: x' :: .token c' :: y' :: links, other, hreads,
    .more (.next (.symbol he) hbranch) hlinks, hother, ?_, ?_⟩
  · simp [yieldAll, yield, yieldAll_append]
  · rw [conditional?, hx, Option.bind_some, hy, Option.bind_some]
    exact congrArg (Option.map _) hlink

end

end Derivation.Branches

/-! ## Derivations of parsed trees -/

open Nonterminal in
def Derivation.Meets : Phrase → List Token → List Tree → Prop
  | .name, us, ts => ∃ t, ts = [t] ∧ IsName us t
  | .operator texts, us, ts => ∃ t, ts = [t] ∧ (anySymbol texts).IsOperator us t
  | .list .name _, us, ts => Lists .params Forms.parameters us ts
  | .more .name, us, ts => ∃ parts, (Ebnf.many (.seq [symbol ",", .token .identifier])).Reads parts ∧
      yieldAll parts = us ∧ ∀ t, names (.token t :: parts) = nameLeaf t :: ts
  | .list .expression _, us, ts => Lists .args trees? us ts
  | .more .expression, us, ts => (Ebnf.seq [symbol ",", .phrase .expression]).Gathers us ts
  | .sequence .declaration _, us, ts =>
    (Ebnf.seq [.any [.phrase .letDecl, .phrase .constDecl], semicolon]).Gathers us ts
  | .sequence .statement _, us, ts => (Ebnf.phrase .statement).Gathers us ts
  | .parameters, us, ts => ∃ t, ts = [t] ∧ Brackets "(" ")" .parameterList .params Forms.parameters us t
  | .arguments, us, ts => ∃ t, ts = [t] ∧ Brackets "(" ")" .argumentList .args trees? us t
  | .declaration, us, ts =>
    ∃ (t : Tree) (n : Nonterminal), ts = [t] ∧ (n = .letDecl ∨ n = .constDecl) ∧ n.Forms us t
  | .statement, us, ts | .letIn, us, ts =>
    ∃ (t : Tree) (n : Nonterminal), ts = [t] ∧ n ∈ Forms.statements ∧ n.Forms us t
  | .conditional kind, us, ts => ∃ t, ts = [t] ∧ Branches kind us t
  | .block, us, ts => ∃ t, ts = [t] ∧ Forms .block us t
  | .expression, us, ts | .lambda, us, ts => ∃ t, ts = [t] ∧ Forms .expression us t
  | .comparison, us, ts => ∃ t, ts = [t] ∧ Forms .comparison us t
  | .sum, us, ts => ∃ t, ts = [t] ∧ Chains .term Parser.additiveOperators .arithmetic us t
  | .product, us, ts => ∃ t, ts = [t] ∧ Chains .power Parser.multiplicativeOperators .arithmetic us t
  | .power, us, ts => ∃ t, ts = [t] ∧ Forms .power us t
  | .unary, us, ts => ∃ t, ts = [t] ∧ Forms .unary us t
  | .primary, us, ts => ∃ t, ts = [t] ∧ Forms .suffixed us t
  -- no other lists and sequences occur
  | .list _ _, _, _ | .more _, _, _ | .sequence _ _, _, _ => True

theorem comparison_single : Nonterminal.Single .comparison .additive .additive
    (anySymbol Parser.comparisonOperators) .comparison := ⟨rfl, fun _ _ => rfl⟩

theorem power_single : Nonterminal.Single .power .unary .power (symbol "**") .arithmetic := ⟨rfl, fun _ _ => rfl⟩

theorem additive_repeated : Nonterminal.Repeated .additive .term Parser.additiveOperators .arithmetic :=
  ⟨rfl, fun _ _ => rfl⟩

theorem term_repeated : Nonterminal.Repeated .term .power Parser.multiplicativeOperators .arithmetic :=
  ⟨rfl, fun _ _ => rfl⟩

theorem Derivation.only {P : Tree → Prop} {t : Tree} (h : ∃ u, [t] = [u] ∧ P u) : P t := by
  obtain ⟨u, hu, hP⟩ := h
  cases hu
  exact hP

namespace Derivation.Meets

variable {p : Phrase} {inside : Bool} {close : String} {c : Token} {us vs : List Token} {t : Tree} {ts : List Tree}

theorem list (ht : Meets p us [t]) (hts : Meets (.more p) vs ts) : Meets (.list p close) (us ++ vs) (t :: ts) := by
  cases p with
  | name =>
    obtain ⟨u, rfl, rfl, hname⟩ := only ht
    obtain ⟨parts, hparts, rfl, hnames⟩ := hts
    exact .inr ⟨.token u :: parts, .next (.token hname) (.last hparts), rfl, congrArg some (hnames u)⟩
  | expression => exact (only ht).separated hts
  | _ => trivial

theorem noMore : Meets (.more p) [] [] := by
  cases p with
  | name => exact ⟨[], .none, rfl, fun _ => rfl⟩
  | expression => exact .none
  | _ => trivial

theorem more (hc : c.isSymbol "," = true) (ht : Meets p us [t]) (hts : Meets (.more p) vs ts) :
    Meets (.more p) (c :: (us ++ vs)) (t :: ts) := by
  cases p with
  | name =>
    obtain ⟨u, rfl, rfl, hname⟩ := only ht
    obtain ⟨parts, hparts, rfl, hnames⟩ := hts
    refine ⟨[.token c, .token u] ++ parts, .more (.next (.symbol hc) (.last (.token hname))) hparts, rfl,
      fun v => ?_⟩
    exact congrArg (nameLeaf v :: ·) (hnames u)
  | expression => exact (only ht).comma hc hts
  | _ => trivial

theorem sequence (end? : Option Token) (hend : ∀ c ∈ end?, c.isSymbol ";" = true) (ht : Meets p us [t])
    (hts : Meets (.sequence p inside) vs ts) :
    Meets (.sequence p inside) (us ++ (end?.toList ++ vs)) (t :: ts) := by
  cases p with
  | declaration =>
    obtain ⟨t, n, ht, hn, hforms⟩ := ht
    cases ht
    exact hforms.declaration end? hn hend hts
  | statement =>
    obtain ⟨t, n, ht, hn, hforms⟩ := ht
    cases ht
    exact hforms.statement end? hn hend hts
  | _ => trivial

end Derivation.Meets

open Bies.Derivation Nonterminal.Forms in
theorem Derives.derivation {p : Phrase} {us rest : List Token} {ts : List Tree} (h : Derives p us ts rest) :
    Meets p us ts := by
  induction h with
  | name hkind htext => exact ⟨_, rfl, _, rfl, rfl, by simp [Terminal.reads, hkind, htext]⟩
  | operator htext ht => exact ⟨_, rfl, _, rfl, rfl, .anySymbol htext ht⟩
  | @noList p => cases p <;> first | exact .inl ⟨rfl, rfl⟩ | trivial
  | list _ _ _ iht ihts => exact .list iht ihts
  | noMore => exact .noMore
  | more hc _ _ iht ihts => exact .more hc iht ihts
  | @noSequence p => cases p <;> first | exact Gathers.none | trivial
  | sequence _ _ _ _ iht ihts => exact .sequence none (by simp) iht ihts
  | semicolon _ hc _ _ iht ihts => exact .sequence (some _) (by simpa using hc) iht ihts
  | parameters ho _ hc ih | arguments ho _ hc ih => exact ⟨_, rfl, Lists.brackets ih _ ho hc⟩
  | letDeclaration hk _ he _ ihname ihvalue =>
    exact ⟨_, .letDecl, rfl, .inl rfl, .declares (.inl rfl) hk (only ihname) he (only ihvalue)⟩
  | constDeclaration hk _ he _ ihname ihvalue =>
    exact ⟨_, .constDecl, rfl, .inr rfl, .declares (.inr rfl) hk (only ihname) he (only ihvalue)⟩
  | ofDeclaration _ _ ih =>
    obtain ⟨t, n, ht, hn, hforms⟩ := ih
    exact ⟨t, n, ht, by rcases hn with rfl | rfl <;> simp [statements], hforms⟩
  | letIn hk ho _ hc hi _ ihds ihbody =>
    exact ⟨_, .letIn, rfl, by simp [statements], .letIn hk ho ihds hc hi (only ihbody)⟩
  | ofLetIn _ ih | ofLambda _ _ ih => exact ih
  | function hk _ _ _ ihname ihparams ihbody =>
    exact ⟨_, .funDecl, rfl, by simp [statements], .function hk (only ihname) (only ihparams) (only ihbody)⟩
  | ofConditional _ ih =>
    obtain ⟨t, ht, hbranches⟩ := ih
    exact ⟨t, .ifStmt, ht, by simp [statements], hbranches.forms⟩
  | ret hk _ ih => exact ⟨_, .returnStmt, rfl, by simp [statements], .ret hk (only ih)⟩
  | print hk _ ih => exact ⟨_, .printStmt, rfl, by simp [statements], .print hk (only ih)⟩
  | ofBlock _ ih =>
    obtain ⟨t, ht, hforms⟩ := ih
    exact ⟨t, .block, ht, by simp [statements], hforms⟩
  | ofExpression _ _ ih => exact ⟨_, .exprStmt, rfl, by simp [statements], (only ih).ofExpression⟩
  | ifThen _ hk ho _ hc _ _ ihtest ihbody => exact ⟨_, rfl, .ifThen hk ho (only ihtest) hc (only ihbody)⟩
  | ifElse _ hk ho _ hc _ he _ ihtest ihbody ihother =>
    exact ⟨_, rfl, .ifElse hk ho (only ihtest) hc (only ihbody) he (only ihother)⟩
  | ifElseIf _ hk ho _ hc _ he _ ihtest ihbody ihlink =>
    exact ⟨_, rfl, .ifElseIf hk ho (only ihtest) hc (only ihbody) he (only ihlink)⟩
  | block ho _ hc ih => exact ⟨_, rfl, .block ho ih hc⟩
  | lambdaBlock _ ha _ ihparams ihbody => exact ⟨_, rfl, .lambda (.inl rfl) (only ihparams) ha (only ihbody)⟩
  | lambdaValue _ ha _ _ ihparams ihvalue => exact ⟨_, rfl, .lambda (.inr rfl) (only ihparams) ha (only ihvalue)⟩
  | ofComparison _ _ ih => exact ih.imp fun _ => .imp_right (·.ofComparison)
  | comparison _ _ _ _ ihleft ihop ihright =>
    have hleft := (only ihleft).forms additive_repeated
    exact ⟨_, rfl, comparison_single.operation hleft (only ihop) ((only ihright).forms additive_repeated)⟩
  | ofSum _ _ ih => exact ih.imp fun _ => .imp_right fun h => comparison_single.operand (h.forms additive_repeated)
  | sum _ _ _ _ ihleft ihop ihright =>
    exact ⟨_, rfl, (only ihleft).operation (only ihop) ((only ihright).forms term_repeated)⟩
  | ofProduct _ _ ih => exact ih.imp fun _ => .imp_right fun h => .operand (h.forms term_repeated)
  | product _ _ _ ihleft ihop ihright => exact ⟨_, rfl, (only ihleft).operation (only ihop) (only ihright)⟩
  | ofPower _ ih => exact ih.imp fun _ => .imp_right .operand
  | power _ _ _ ihbase ihop ihexponent =>
    exact ⟨_, rfl, power_single.operation (only ihbase) (only ihop).power (only ihexponent)⟩
  | ofUnary _ _ ih => exact ih.imp fun _ => .imp_right power_single.operand
  | negative hm hkind => exact ⟨_, rfl, .negative hm (by simp [Terminal.reads, hkind])⟩
  | ofPrimary _ _ ih => exact ih.imp fun _ => .imp_right (·.unary)
  | number hkind => exact ⟨_, rfl, .literal (.inl rfl) (by simp [Terminal.reads, hkind]) (by simp [leafOf, hkind])⟩
  | string hkind hclosed =>
    exact ⟨_, rfl, .literal (.inr (.inl rfl)) (by simp [Terminal.reads, hkind, hclosed]) (by simp [leafOf, hkind])⟩
  | ofName _ _ ih => exact ih.imp fun _ => .imp_right .ofName
  | call _ _ ihname ihargs => exact ⟨_, rfl, .call (only ihname) (only ihargs)⟩
  | access _ ho _ hc ihname ihindex => exact ⟨_, rfl, .access (only ihname) ho (only ihindex) hc⟩
  | listLiteral ho _ hc _ ih => exact ⟨_, rfl, .listLiteral (Lists.brackets ih _ ho hc)⟩
  | parenthesized ho _ hc _ ih => exact ⟨_, rfl, .parenthesized ho (only ih) hc⟩

/-! ## Names -/

mutual

def Tree.subtrees : Tree → List Tree
  | .node kind span children => .node kind span children :: subtreesAll children

def Tree.subtreesAll : List Tree → List Tree
  | [] => []
  | t :: ts => t.subtrees ++ subtreesAll ts

end

def Tree.NamesFrom (us : List Token) (t : Tree) : Prop :=
  ∀ x ∈ t.subtrees, x.kind = .identifier → ∃ u ∈ us, Terminal.identifier.reads u = true ∧ x = nameLeaf u

theorem Tree.mem_subtreesAll {x : Tree} {ts : List Tree} : x ∈ subtreesAll ts ↔ ∃ t ∈ ts, x ∈ t.subtrees := by
  induction ts with
  | nil => simp [subtreesAll]
  | cons t ts ih => simp [subtreesAll, ih]

theorem Tree.namesFrom_node {us : List Token} {kind : Tree.Kind} {span : Span} {ts : List Tree}
    (hkind : kind ≠ .identifier) : (Tree.node kind span ts).NamesFrom us ↔ ∀ t ∈ ts, t.NamesFrom us := by
  constructor
  · intro h t ht x hx
    exact h x (List.mem_cons_of_mem _ (mem_subtreesAll.mpr ⟨t, ht, hx⟩))
  · intro h x hx hx'
    rcases List.mem_cons.mp hx with rfl | hx
    · exact absurd hx' hkind
    · obtain ⟨t, ht, hx⟩ := mem_subtreesAll.mp hx
      exact h t ht x hx hx'

theorem Derives.namesFrom {p : Phrase} {us rest : List Token} {ts : List Tree} (h : Derives p us ts rest)
    {ws : List Token} (hus : us ⊆ ws) : ∀ t ∈ ts, t.NamesFrom ws := by
  induction h with
  | @name t _ hkind htext =>
    intro x hx y hy _
    cases List.mem_singleton.mp hx
    cases List.mem_singleton.mp hy
    exact ⟨t, hus (by simp), by simp [Terminal.reads, hkind, htext], rfl⟩
  | letIn hk ho hds hc hi hbody ihds ihbody =>
    simp only [List.cons_subset, List.append_subset] at hus
    have hdecls := ihds hus.2.2.1
    have hbody := ihbody hus.2.2.2.2.2
    simp only [List.mem_singleton, forall_eq] at hbody ⊢
    rw [Tree.namesFrom_node (by simp)]
    simpa [or_imp, forall_and] using ⟨hdecls, hbody⟩
  | ifThen hkind | ifElse hkind | ifElseIf hkind =>
    rcases hkind with rfl | rfl <;> simp_all [Tree.namesFrom_node]
  | @number t | @negative _ t =>
    have hkind : Parser.numberKind t ≠ .identifier := by
      unfold Parser.numberKind
      split <;> simp
    simp [Tree.leaf, Tree.namesFrom_node hkind]
  | _ => simp_all [Tree.namesFrom_node, Tree.covering, Tree.leaf]

/-! ## Parsing -/

/-- Every tree that is parsed is the tree of a derivation of a program, whose yield is the tokens of the source,
comments apart. Its names are tokens of the source that are no keywords. A source of 2³² bytes or more is left out, as
spans count modulo 2³². -/
theorem Tree.exists_derivation_of_parse {source : List Char} {tree : Tree} (hsize : byteLength source < 2 ^ 32)
    (h : Tree.parse source = .ok tree) :
    ∃ parts, Nonterminal.program.rule.Reads parts ∧
      yieldAll parts = (Token.scan source).filter (·.kind ≠ .comment) ∧
      (trees? parts).map (.node .program (.ofOffsets 0 (byteLength source))) = some tree ∧
      tree.NamesFrom (yieldAll parts) ∧
      ∀ x ∈ tree.subtrees, x.kind = .identifier → x.text source ∉ Token.keywords := by
  obtain ⟨ts, rfl, hderives⟩ := Tree.derives_of_parse h
  obtain ⟨parts, hparts, hyield, htrees⟩ := hderives.derivation
  have hnames : (Tree.node .program (.ofOffsets 0 (byteLength source)) ts).NamesFrom (yieldAll parts) := by
    rw [hyield, Tree.namesFrom_node (by simp)]
    exact hderives.namesFrom (List.Subset.refl _)
  refine ⟨parts, hparts, hyield, by rw [htrees]; rfl, hnames, ?_⟩
  intro x hx hkind
  obtain ⟨u, hu, hreads, rfl⟩ := hnames x hx hkind
  rw [hyield] at hu
  have htext : (nameLeaf u).text source = u.text := Token.text_of_mem_scan hsize (List.mem_filter.mp hu).1
  rw [htext]
  simp only [Terminal.reads, Bool.and_eq_true, Bool.not_eq_true'] at hreads
  simpa using hreads.2

def sampledSource : List Char :=
  ("let f = (x, y) => x - 1 - 2 * -3 ** y; // twice\n" ++
    "if (f(1, 2) == a[0]) \x7b print() \x7d else if (1 < 2) \x7b \x7d else \x7b return [1] \x7d").toList

theorem Tree.exists_derivation_of_sampledSource : byteLength sampledSource < 2 ^ 32 ∧
    ∃ tree parts, Tree.parse sampledSource = .ok tree ∧
    tree.children.map Tree.kind = [.letDeclaration, .ifStatement] ∧
    Nonterminal.program.rule.Reads parts ∧
    yieldAll parts = (Token.scan sampledSource).filter (·.kind ≠ .comment) ∧
    (trees? parts).map (.node .program (.ofOffsets 0 (byteLength sampledSource))) = some tree ∧
    tree.NamesFrom (yieldAll parts) ∧
    ∀ x ∈ tree.subtrees, x.kind = .identifier → x.text sampledSource ∉ Token.keywords := by
  obtain ⟨tree, htree, hkinds⟩ := Tree.exists_of_parse sampledSource
    (p := fun t => t.children.map Tree.kind = [.letDeclaration, .ifStatement]) (by decide +kernel)
  have hsize : byteLength sampledSource < 2 ^ 32 := by decide +kernel
  obtain ⟨parts, hparts, hyield, htrees, hnames, htexts⟩ := Tree.exists_derivation_of_parse hsize htree
  exact ⟨hsize, tree, parts, htree, of_decide_eq_true hkinds, hparts, hyield, htrees, hnames, htexts⟩

end Bies
