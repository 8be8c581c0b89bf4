import Bies.Proofs.MatchingTrees
import Bies.Proofs.NumberTexts
import Bies.Proofs.Progress
import Bies.Proofs.TokenGaps
import Bies.Proofs.WholeNumbers

/-!
# Arithmetic on whole numbers, as tokens

`Amounts level us n` says that the tokens `us` are arithmetic on whole numbers, each part of which has a whole
number for its value, and that the value of all is `n`. The operators are grouped by how tightly they bind. An
expression is parsed from such tokens, and it is read as arithmetic of that value.
-/

namespace Bies

open List Bies.Parser

inductive Precedence where
  | operand
  | power
  | product
  | sum

namespace Precedence

def operators : Precedence → List String
  | .operand => []
  | .power => ["**"]
  | .product => multiplicativeOperators
  | .sum => additiveOperators

def inner : Precedence → Precedence
  | .operand => .operand
  | .power => .operand
  | .product => .power
  | .sum => .product

def left : Precedence → Precedence
  | .operand => .operand
  | .power => .operand
  | .product => .product
  | .sum => .sum

def right : Precedence → Precedence
  | .operand => .operand
  | .power => .power
  | .product => .power
  | .sum => .product

end Precedence

inductive Amounts : Precedence → List Token → Int64 → Prop where
  | number {t : Token} {n : Int64} : t.kind = .number → numberKind t = .integer → readInt? t.text.toList = some n →
    Amounts .operand [t] n
  /-- A minus sign directly before a number. -/
  | negative {m t : Token} {n : Int64} : m.IsPunct "-" → t.kind = .number → numberKind t = .integer →
    m.span.stop = t.span.start → readInt? ('-' :: t.text.toList) = some n → Amounts .operand [m, t] n
  | parenthesized {o c : Token} {us : List Token} {n : Int64} : o.IsPunct "(" → c.IsPunct ")" → Amounts .sum us n →
    Amounts .operand (o :: (us ++ [c])) n
  | inner {level : Precedence} {us : List Token} {n : Int64} : Amounts level.inner us n → Amounts level us n
  | operation {level : Precedence} {us vs : List Token} {u : Token} {op : String} {a b n : Int64} :
    Amounts level.left us a →
    op ∈ level.operators → u.IsPunct op → Amounts level.right vs b → Number.combine? (.int a) op
      (.int b) = some (.int n) →
    Amounts level (us ++ u :: vs) n

theorem Parser.BeginsNumber.append {us : List Token} (h : BeginsNumber us) (vs : List Token) :
    BeginsNumber (us ++ vs) := by
  obtain ⟨t, us, rfl, ht⟩ := h
  exact ⟨t, us ++ vs, rfl, ht⟩

namespace Amounts

variable {level : Precedence} {us : List Token} {n : Int64}

theorem begins (h : Amounts level us n) : BeginsNumber us ∧ ∀ rest, startsLambda (us ++ rest) = false := by
  induction h with
  | number ht =>
    refine ⟨⟨_, _, rfl, .inl ht⟩, fun rest => ?_⟩
    rw [singleton_append, startsLambda, Token.isSymbol, ht]
    rfl
  | negative hm =>
    refine ⟨⟨_, _, rfl, .inr (.inr hm)⟩, fun rest => ?_⟩
    rw [cons_append, startsLambda, Token.isSymbol_of_isSymbol hm.isSymbol]
    rfl
  | @parenthesized o c us n ho hc _ ih =>
    refine ⟨⟨_, _, rfl, .inr (.inl ho)⟩, fun rest => ?_⟩
    have hinside : BeginsNumber (us ++ [c] ++ rest) := by
      rw [append_assoc]
      exact ih.1.append _
    rw [cons_append, startsLambda, hinside.endsParameters_eq, Bool.and_false]
  | inner _ ih => exact ih
  | operation _ _ _ _ _ ih =>
    refine ⟨ih.1.append _, fun rest => ?_⟩
    rw [append_assoc]
    exact ih.2 _

theorem length_pos (h : Amounts level us n) : 0 < us.length := by
  obtain ⟨⟨t, vs, rfl, -⟩, -⟩ := h.begins
  exact Nat.succ_pos _

end Amounts

/-! ## Parsing -/

namespace Precedence

def phrase : Precedence → Phrase
  | .operand => .unary
  | .power => .power
  | .product => .product
  | .sum => .sum

def tighter : Precedence → List String
  | .operand => []
  | .power => ["**"]
  | .product => ["**"]
  | .sum => "**" :: multiplicativeOperators

def Reads (level : Precedence) (us : List Token) (t : Tree) : Prop :=
  ∀ rest, Lacks level.tighter rest → Derives level.phrase us [t] rest

variable {level : Precedence} {us vs rest : List Token} {left right t : Tree} {u : Token}

theorem Reads.inner (h : level.inner.Reads us t) : level.Reads us t := by
  intro rest hrest
  cases level with
  | operand => exact h rest hrest
  | power => exact .ofUnary (h rest (fun _ h => by cases h)) (hrest "**" (by decide))
  | product => exact .ofPower (h rest hrest)
  | sum => exact .ofProduct (h rest (hrest.sub (by decide))) (hrest.sub (by decide))

theorem Reads.operation {op : String} (hop : op ∈ level.operators) (hu : u.IsPunct op)
    (hleft : level.left.Reads us left) (hright : level.right.Reads vs right) :
    level.Reads (us ++ u :: vs) (.covering .arithmetic [left, .leaf .operator u.span, right]) := by
  intro rest hrest
  have hoperator : Derives (.operator level.operators) [u] [.leaf .operator u.span] (vs ++ rest) :=
    .operator hop hu.isSymbol
  have hother : ∀ w ∈ level.operators, w ∉ level.left.tighter := by cases level <;> decide
  have hleft : Derives level.left.phrase us [left] ([u] ++ vs ++ rest) :=
    hleft _ (lacks_of_isSymbol hu.isSymbol (hother op hop))
  have hright := hright rest (hrest.sub (by cases level <;> decide))
  cases level with
  | operand => cases hop
  | power => exact Derives.power hleft hoperator hright
  | product => exact Derives.product hleft hoperator hright
  | sum => exact Derives.sum hleft hoperator hright (hrest.sub (by decide))

theorem reads_number (hu : u.kind = .number) : operand.Reads [u] (.leaf (numberKind u) u.span) := by
  intro rest _
  refine .ofPrimary (.number hu) ?_
  rw [singleton_append, head?_cons, Option.any_some, Token.isSymbol, hu]
  rfl

theorem Reads.expression {c : Token} (h : sum.Reads us t) (hlambda : startsLambda (us ++ c :: rest) = false)
    (hc : c.IsPunct ")") : Derives .expression us [t] (c :: rest) :=
  .ofComparison (.ofSum (h _ (lacks_of_isSymbol hc.isSymbol (by decide))) (lacks_of_isSymbol hc.isSymbol (by decide)))
    hlambda

theorem Reads.parenthesized {o c : Token} (ho : o.IsPunct "(") (hc : c.IsPunct ")") (h : sum.Reads us t)
    (hlambda : ∀ rest, startsLambda (us ++ rest) = false) : operand.Reads (o :: (us ++ [c])) t := by
  intro rest _
  refine .ofPrimary (.parenthesized ho.isSymbol (h.expression (hlambda _) hc) hc.isSymbol ho.1) ?_
  exact Token.isSymbol_of_isSymbol ho.isSymbol "-"

end Precedence

/-! ## Values -/

theorem Token.stand_append {source : List Char} {us vs : List Token} (h : Token.Stand source (us ++ vs)) :
    Token.Stand source us ∧ Token.Stand source vs := by
  induction us with
  | nil => exact ⟨.nil, h⟩
  | cons u us ih =>
    rw [cons_append] at h
    obtain _ | ⟨htext, hjoin, hrest⟩ := h
    refine ⟨.cons htext (fun n hn => hjoin n ?_) (ih hrest).1, (ih hrest).2⟩
    rw [head?_append, Option.mem_def.mp hn]
    rfl

section
variable {source : List Char} {left right : Tree} {op : String} {u : Token} {span : Span} {a b n : Int64}

theorem Expr.whole_leaf (h : readInt? (span.text source).toList = some n) :
    (Program.exprOf source (.leaf .integer span)).Whole span n := by
  have hread : Program.exprOf source (.leaf .integer span) = .int span n := by
    rw [Tree.leaf, Program.exprOf, h]
  rw [hread]
  exact .int

theorem Expr.whole_covering (hu : u.span.text source = op) (hleft : (Program.exprOf source left).Whole left.span a)
    (hright : (Program.exprOf source right).Whole right.span b)
    (hcombine : Number.combine? (.int a) op (.int b) = some (.int n)) :
    let t := Tree.covering .arithmetic [left, .leaf .operator u.span, right]
    (Program.exprOf source t).Whole t.span n := by
  intro t
  have hkind : (Tree.leaf .operator u.span).kind = .operator := rfl
  subst hu
  simp only [t, Tree.covering]
  rw [Program.exprOf, if_pos hkind]
  exact .arithmetic hleft hright hcombine

end

namespace Amounts

variable {level : Precedence} {us : List Token} {n : Int64}

theorem exists_tree (h : Amounts level us n) : ∃ t : Tree, t.IsNumber ∧ level.Reads us t ∧
    ∀ source, Token.Stand source us → (Program.exprOf source t).Whole t.span n := by
  induction h with
  | @number t _ ht hkind hread =>
    refine ⟨.leaf (numberKind t) t.span, .inl hkind, Precedence.reads_number ht, fun source hstand => ?_⟩
    obtain _ | ⟨htext, -, -⟩ := hstand
    rw [← htext] at hread
    rw [hkind]
    exact Expr.whole_leaf hread
  | @negative m t k hm ht hkind hnext hread =>
    refine ⟨.leaf (numberKind t) (m.span.join t.span), .inl hkind, fun _ _ => .negative hm.isSymbol ht,
      fun source hstand => ?_⟩
    obtain _ | ⟨-, hjoin, -⟩ := hstand
    obtain ⟨gap, -, htext, hgap⟩ := hjoin _ rfl
    rw [hgap.mpr hnext, hm.2] at htext
    have hvalue : readInt? ((m.span.join t.span).text source).toList = some k := by
      rw [htext, String.toList_ofList]
      exact hread
    rw [hkind]
    exact Expr.whole_leaf hvalue
  | parenthesized ho hc hus ih =>
    obtain ⟨t, hnumber, hreads, hwhole⟩ := ih
    refine ⟨t, hnumber, hreads.parenthesized ho hc hus.begins.2, fun source hstand => ?_⟩
    obtain _ | ⟨-, -, hstand⟩ := hstand
    exact hwhole source (Token.stand_append hstand).1
  | inner hus ih =>
    obtain ⟨t, hnumber, hreads, hwhole⟩ := ih
    exact ⟨t, hnumber, hreads.inner, hwhole⟩
  | operation hus hop hu hvs hcombine ihleft ihright =>
    obtain ⟨left, -, hleft, hwholeLeft⟩ := ihleft
    obtain ⟨right, -, hright, hwholeRight⟩ := ihright
    refine ⟨_, .inr rfl, .operation hop hu hleft hright, fun source hstand => ?_⟩
    obtain ⟨hstandLeft, hstand⟩ := Token.stand_append hstand
    obtain _ | ⟨htext, -, hstandRight⟩ := hstand
    exact Expr.whole_covering (htext.trans hu.2) (hwholeLeft source hstandLeft) (hwholeRight source hstandRight) hcombine

end Amounts

/-! ## Other places -/

def Token.shift (k : Nat) (t : Token) : Token := { t with span := ⟨t.span.start + .ofNat k, t.span.stop + .ofNat k⟩ }

theorem Token.scanFrom_shift (k start : Nat) (cs : List Char) :
    scanFrom (start + k) cs = (scanFrom start cs).map (shift k) := by
  induction start, cs using scanFrom.induct with
  | case1 start =>
    rw [scanFrom, scanFrom]
    rfl
  | case2 start c cs hblank ih =>
    rw [scanFrom, scanFrom, if_pos hblank, if_pos hblank, ← ih, Nat.add_right_comm]
  | case3 start c cs hblank lexeme stop ih =>
    have hstop : start + k + byteLength lexeme.chars = stop + k := Nat.add_right_comm _ _ _
    have hspan : Span.ofOffsets (start + k) (stop + k) =
        ⟨(Span.ofOffsets start stop).start + .ofNat k, (Span.ofOffsets start stop).stop + .ofNat k⟩ := by
      simp only [Span.ofOffsets, UInt32.ofNat_add]
    rw [scanFrom, scanFrom, if_neg hblank, if_neg hblank]
    dsimp only
    rw [hstop, hspan, ih, map_cons]
    rfl

namespace Amounts

theorem shift {level : Precedence} {us : List Token} {n : Int64} (k : Nat) (h : Amounts level us n) :
    Amounts level (us.map (Token.shift k)) n := by
  induction h with
  | number ht hkind hread => exact .number ht hkind hread
  | negative hm ht hkind hnext hread => exact .negative hm ht hkind (congrArg (· + UInt32.ofNat k) hnext) hread
  | parenthesized ho hc _ ih =>
    rw [map_cons, map_append, map_singleton]
    exact .parenthesized ho hc ih
  | inner _ ih => exact .inner ih
  | operation _ hop hu _ hcombine ihleft ihright =>
    rw [map_append, map_cons]
    exact .operation ihleft hop hu ihright hcombine

end Amounts

/-! ## Literals -/

theorem digitsValue_toDigits (n : Nat) : digitsValue (Nat.toDigits 10 n) = n := Nat.ofDigitChars_ten_toDigits

theorem readDigits?_toDigits (n : Nat) : readDigits? (Nat.toDigits 10 n) = some n := by
  have hdigits : (Nat.toDigits 10 n).all Char.isDigit = true := all_eq_true.mpr fun c hc => isDigit_of_mem_digits hc
  rw [readDigits?, if_pos ⟨Nat.toDigits_ne_nil, hdigits⟩, digitsValue_toDigits]

theorem readInt?_toDigits (n : Nat) : readInt? (Nat.toDigits 10 n) = int64? n := by
  have hsign : splitSign (Nat.toDigits 10 n) = (false, Nat.toDigits 10 n) := by
    unfold splitSign
    split
    next h => exact absurd h digits_ne_negative
    next h =>
      have : Char.isDigit '+' = true := isDigit_of_mem_digits (h ▸ mem_cons_self)
      cases this
    next => rfl
  rw [readInt?, hsign]
  dsimp only
  rw [readDigits?_toDigits]
  rfl

theorem readInt?_negative (n : Nat) : readInt? ('-' :: Nat.toDigits 10 n) = int64? (-n) := by
  rw [readInt?, splitSign]
  dsimp only
  rw [readDigits?_toDigits]
  rfl

theorem numberKind_of_toDigits {t : Token} {n : Nat} (h : t.text.toList = Nat.toDigits 10 n) :
    numberKind t = .integer := by
  rw [numberKind, if_neg]
  intro hpoint
  have : Char.isDigit '.' = true := isDigit_of_mem_digits (h ▸ hpoint)
  cases this

theorem Amounts.literal (r : Int64) :
    Amounts .operand ((Token.scan (renderInt r).toList).filter (·.kind ≠ .comment)) r := by
  have hdigits : ∀ n, Outline.Lexical .number (String.ofList (Nat.toDigits 10 n)).toList := by
    intro n
    rw [String.toList_ofList]
    refine Outline.lexical_digits ?_
    rw [Outline.areDigits, Bool.and_eq_true, Bool.not_eq_true', isEmpty_eq_false_iff, all_eq_true]
    exact ⟨Nat.toDigits_ne_nil, fun c hc => isDigit_of_mem_digits hc⟩
  have htext : (renderInt r).toList = _ := toList_int r.toInt
  by_cases hsign : 0 ≤ r.toInt
  · obtain ⟨n, hn⟩ := Int.eq_ofNat_of_zero_le hsign
    rw [if_pos hsign, hn, Int.toNat_natCast] at htext
    have hrender : (renderInt r).toList = (String.ofList (Nat.toDigits 10 n)).toList ++ [] := by
      rw [htext, String.toList_ofList, append_nil]
    rw [hrender, Token.scan, (hdigits n).scan (.inl rfl), Token.scanFrom]
    refine .number rfl (numberKind_of_toDigits String.toList_ofList) ?_
    rw [String.toList_ofList, readInt?_toDigits, int64?_eq_some]
    exact hn.symm
  · obtain ⟨n, hn⟩ := Int.eq_ofNat_of_zero_le (show 0 ≤ -r.toInt by omega)
    rw [if_neg hsign, hn, Int.toNat_natCast] at htext
    have hrender : (renderInt r).toList = ("-" ++ String.ofList (Nat.toDigits 10 n)).toList ++ [] := by
      rw [htext, String.toList_append, String.toList_ofList, String.toList_ofList, append_nil]
      rfl
    rw [hrender, Token.scan, (hdigits n).scan_signed (.inl rfl), Token.scanFrom]
    refine .negative ⟨rfl, rfl⟩ rfl (numberKind_of_toDigits String.toList_ofList) rfl ?_
    rw [String.toList_ofList, readInt?_negative, int64?_eq_some]
    omega

end Bies
