import Bies.Proofs.ParserRuns
import Bies.Proofs.Printing
import Bies.Proofs.SideBySide
import Mathlib.Data.List.Forall2

/-!
# Parsing two lists of tokens side by side

Two lists of tokens are parsed in the same way if their tokens stand for each other, except that behind an
opening parenthesis one list may have one number and the other another, each made of any number of tokens. The
parsers have budgets of their own, ten units for each token and as many more as there are parsers that may call
each other before a token is taken.
-/

namespace Bies

open List

def ParseError.moved (e : ParseError) (s : Span) : ParseError :=
  match e with
  | .expected what _ => .expected what s
  | .unexpectedEnd what _ => .unexpectedEnd what s
  | .unterminatedString _ => .unterminatedString s
  | .badUnaryMinus _ => .badUnaryMinus s

theorem ParseError.kind_moved (e : ParseError) (s : Span) : (e.moved s).kind = e.kind := by cases e <;> rfl

theorem ParseError.moved_span (e : ParseError) : e.moved e.span = e := by cases e <;> rfl

namespace Parser

def BeginsNumber (us : List Token) : Prop :=
  ∃ t vs, us = t :: vs ∧ (t.kind = .number ∨ t.IsPunct "(" ∨ t.IsPunct "-")

theorem BeginsNumber.not_closing {us : List Token} (h : BeginsNumber us) : us.head?.any (·.isSymbol ")") = false := by
  obtain ⟨t, vs, rfl, ht | ht | ht⟩ := h
  · rw [head?_cons, Option.any_some, Token.isSymbol, ht]
    rfl
  · exact Token.isSymbol_of_isSymbol ht.isSymbol ")"
  · exact Token.isSymbol_of_isSymbol ht.isSymbol ")"

theorem BeginsNumber.endsParameters_eq {us : List Token} (h : BeginsNumber us) : endsParameters us = false := by
  obtain ⟨t, vs, rfl, ht | ⟨hkind, htext⟩ | ⟨hkind, htext⟩⟩ := h
  · rw [endsParameters, ht]
    rfl
  · rw [endsParameters, hkind, htext]
    rfl
  · rw [endsParameters, hkind, htext]
    rfl

theorem numberKind_ne_identifier (t : Token) : numberKind t ≠ .identifier := by
  unfold numberKind
  split <;> decide

structure Simulation (stop stop' : Finish) where
  tokens : Token → Token → Prop
  trees : Tree → Tree → Prop
  /-- The places of errors. -/
  spans : Span → Span → Prop
  /-- Both lists begin with a number of their own; what follows it comes last. -/
  numbers : List Token → List Token → List Token → List Token → Prop
  kind_eq : ∀ {t t' : Token}, tokens t t' → t.kind = t'.kind
  text_eq : ∀ {t t' : Token}, tokens t t' → t.text = t'.text
  span : ∀ {t t' : Token}, tokens t t' → spans t.span t'.span
  ends : spans stop.span stop'.span
  join : ∀ {s s' u u' : Span}, spans s s' → spans u u' → spans (s.join u) (s'.join u')
  leaf : ∀ {t t' : Token} {kind : Tree.Kind}, tokens t t' → (kind = .identifier → t.kind = .identifier) →
    trees (.leaf kind t.span) (.leaf kind t'.span)
  node : ∀ {kind : Tree.Kind} {span span' : Span} {ts ts' : List Tree}, kind.isLeaf = false →
    Forall₂ trees ts ts' →
    trees (.node kind span ts) (.node kind span' ts')
  begins : ∀ {us us' vs vs' : List Token}, numbers us us' vs vs' → BeginsNumber us ∧ BeginsNumber us'
  first : ∀ {t t' : Token} {us us' vs vs' : List Token}, numbers (t :: us) (t' :: us') vs vs' → spans t.span t'.span
  shorter : ∀ {us us' vs vs' : List Token}, numbers us us' vs vs' → vs.length < us.length ∧ vs'.length < us'.length
  expression : ∀ {us us' vs vs' : List Token} {n n' : Nat}, numbers us us' vs vs' → 10 * us.length + 7 ≤ n →
    10 * us'.length + 7 ≤ n' → ∃ t t', (expression stop n).Goes us t vs ∧
      (expression stop' n').Goes us' t' vs' ∧ trees t t'

namespace Simulation

-- for simulations without numbers of their own

theorem not_begins : ∀ {us us' _ _ : List Token}, False → BeginsNumber us ∧ BeginsNumber us' := False.elim

theorem not_shorter : ∀ {us us' vs vs' : List Token}, False → vs.length < us.length ∧ vs'.length < us'.length :=
  False.elim

variable {stop stop' : Finish} (S : Simulation stop stop')

/-- The tokens that are left on each side. They may begin with the place of a number only if `inside`. -/
inductive Beside : Bool → List Token → List Token → Prop where
  | nil {inside} : Beside inside [] []
  | cons {inside t t' us us'} : S.tokens t t' →
    (∀ u u', us.head? = some u → us'.head? = some u' → t.isSymbol "-" = true →
      S.trees (.leaf (numberKind u) (t.span.join u.span)) (.leaf (numberKind u') (t'.span.join u'.span))) →
    Beside false us us' → Beside inside (t :: us) (t' :: us')
  | opening {inside t t' us us'} : S.tokens t t' → t.IsPunct "(" →
    Beside true us us' →
    Beside inside (t :: us) (t' :: us')
  | numbers {us us' vs vs'} : S.numbers us us' vs vs' → Beside false vs vs' → Beside true us us'

variable {S}

theorem isSymbol_eq {t t' : Token} (h : S.tokens t t') : t.isSymbol = t'.isSymbol := by
  funext text
  rw [Token.isSymbol, Token.isSymbol, S.kind_eq h, S.text_eq h]

namespace Beside

variable {inside : Bool} {t t' : Token} {us us' : List Token}

theorem weaken (h : S.Beside false us us') : S.Beside inside us us' := by
  cases h with
  | nil => exact .nil
  | cons ht hsign hus => exact .cons ht hsign hus
  | opening ht hopening hus => exact .opening ht hopening hus

theorem lists (h : S.Beside inside us us') : (us = [] ∧ us' = []) ∨
    ∃ t t' vs vs', us = t :: vs ∧ us' = t' :: vs' ∧ S.spans t.span t'.span := by
  cases h with
  | nil => exact .inl ⟨rfl, rfl⟩
  | cons ht => exact .inr ⟨_, _, _, _, rfl, rfl, S.span ht⟩
  | opening ht => exact .inr ⟨_, _, _, _, rfl, rfl, S.span ht⟩
  | numbers h =>
    obtain ⟨⟨_, _, rfl, -⟩, ⟨_, _, rfl, -⟩⟩ := S.begins h
    exact .inr ⟨_, _, _, _, rfl, rfl, S.first h⟩

theorem outside (h : S.Beside inside us us') :
    S.Beside false us us' ∨ ∃ vs vs', S.numbers us us' vs vs' ∧ S.Beside false vs vs' := by
  cases h with
  | nil => exact .inl .nil
  | cons ht hsign hus => exact .inl (.cons ht hsign hus)
  | opening ht hopening hus => exact .inl (.opening ht hopening hus)
  | numbers h hvs => exact .inr ⟨_, _, h, hvs⟩

theorem head (h : S.Beside false (t :: us) (t' :: us')) : S.tokens t t' := by
  cases h with
  | cons ht => exact ht
  | opening ht => exact ht

theorem tail (h : S.Beside false (t :: us) (t' :: us')) : S.Beside true us us' := by
  cases h with
  | cons _ _ hus => exact hus.weaken
  | opening _ _ hus => exact hus

theorem after (h : S.Beside false (t :: us) (t' :: us')) (ht : ¬t.IsPunct "(") : S.Beside false us us' := by
  cases h with
  | cons _ _ hus => exact hus
  | opening _ hopening => exact absurd hopening ht

end Beside

variable (S)

structure At (inside : Bool) (m m' taken : Nat) (us us' : List Token) : Prop where
  beside : S.Beside inside us us'
  left : us.length + taken ≤ m
  right : us'.length + taken ≤ m'

/-- The parsers both give a result, with `R` of the results, and have taken some tokens; or both fail with the
same error, each at its place. -/
def PairsFrom {α β : Type} (m m' taken : Nat) (us us' : List Token) (x : Parser α) (y : Parser β)
    (R : α → β → Prop) : Prop :=
  match x.run us, y.run us' with
  | .ok (a, vs), .ok (b, vs') => R a b ∧ S.At false m m' taken vs vs'
  | .error e, .error e' => e' = e.moved e'.span ∧ S.spans e.span e'.span
  | _, _ => False

def Pairs {α β : Type} (inside : Bool) (m m' before : Nat) (x : Parser α) (y : Parser β)
    (R : α → β → Prop) (taken : Nat) : Prop :=
  ∀ us us', S.At inside m m' before us us' → S.PairsFrom m m' taken us us' x y R

/-- With ten units for each token and `spare` more, the parsers give the same and take at least `taken` tokens. -/
def Fits {α β : Type} (inside : Bool) (spare taken n : Nat) (x : Parser α) (y : Nat → Parser β)
    (R : α → β → Prop) : Prop :=
  ∀ n' m m', 10 * m + spare ≤ n → 10 * m' + spare ≤ n' → S.Pairs inside m m' 0 x (y n') R taken

variable {S}

section
variable {inside : Bool} {m m' c : Nat} {t t' : Token} {us us' : List Token}

theorem At.tail (h : S.At false m m' c (t :: us) (t' :: us')) : S.At true m m' (c + 1) us us' where
  beside := h.beside.tail
  left := by
    have := h.left
    rw [length_cons] at this
    omega
  right := by
    have := h.right
    rw [length_cons] at this
    omega

theorem At.after (h : S.At false m m' c (t :: us) (t' :: us')) (ht : ¬t.IsPunct "(") : S.At false m m' (c + 1) us us' :=
  ⟨h.beside.after ht, h.tail.left, h.tail.right⟩

end

namespace Fits

variable {α β : Type} {inside : Bool} {spare taken n : Nat} {x : Parser α} {y : Nat → Parser β}
  {R : α → β → Prop}

theorem zero (h : 0 < spare := by decide) : S.Fits inside spare taken 0 x y R := by
  intro n' m m' hn
  omega

theorem succ
    (hxy : ∀ n' m m', 10 * m + spare ≤ n + 1 → 10 * m' + spare ≤ n' + 1 →
      S.Pairs inside m m' 0 x (y (n' + 1)) R taken)
    (h : 0 < spare := by decide) : S.Fits inside spare taken (n + 1) x y R := by
  intro n' m m' hn hn'
  cases n' with
  | zero => omega
  | succ n' => exact hxy n' m m' hn hn'

variable {m m' n' k c c' : Nat}

theorem called (h : S.Fits inside spare taken n x y R) (hn : 10 * m + k ≤ n + 1) (hn' : 10 * m' + k ≤ n' + 1)
    (hk : spare + 1 ≤ k + 10 * c := by decide) : S.Pairs inside m m' c x (y n') R (c + taken) := by
  intro us us' hus
  have hleft := hus.left
  have hright := hus.right
  have hxy := h n' us.length us'.length (by omega) (by omega) us us' ⟨hus.beside, by omega, by omega⟩
  unfold PairsFrom at hxy ⊢
  cases hrun : x.run us <;> cases hrun' : (y n').run us' <;> rw [hrun, hrun'] at hxy
  case ok.ok p q => exact ⟨hxy.1, hxy.2.beside, by have := hxy.2.left; omega, by have := hxy.2.right; omega⟩
  case error.error => exact hxy
  all_goals exact hxy.elim

end Fits

namespace Pairs

variable {α β γ δ : Type} {x : Parser α} {y : Parser β} {R : α → β → Prop} {T : γ → δ → Prop}
  {inside : Bool}
  {m m' c c₁ c₂ : Nat}

section
variable {k : α → Parser γ} {what : Expectation} {l : List Token → Parser δ}

theorem bind {l : β → Parser δ} (hx : S.Pairs inside m m' c x y R c₁)
    (hk : ∀ a b, R a b → S.Pairs false m m' c₁ (k a) (l b) T c₂) :
    S.Pairs inside m m' c (x >>= k) (y >>= l) T c₂ := by
  intro us us' h
  have hxy := hx us us' h
  unfold PairsFrom at hxy ⊢
  rw [StateT.run_bind, StateT.run_bind]
  cases hrun : x.run us <;> cases hrun' : y.run us' <;> rw [hrun, hrun'] at hxy
  case error.error => exact hxy
  case ok.ok p q => exact hk p.1 q.1 hxy.1 p.2 q.2 hxy.2
  all_goals exact hxy.elim

theorem ret {a : α} {b : β} (h : R a b) (hc : c₁ ≤ c := by decide) :
    S.Pairs false m m' c (pure a) (pure b) R c₁ :=
  fun _ _ hus => ⟨h, hus.beside, Nat.le_trans (Nat.add_le_add_left hc _) hus.left,
    Nat.le_trans (Nat.add_le_add_left hc _) hus.right⟩

theorem last {f : α → γ} {f' : β → δ} (hx : S.Pairs inside m m' c x y R c₁)
    (h : ∀ a b, R a b → T (f a) (f' b)) (hc : c₂ ≤ c₁ := by decide) :
    S.Pairs inside m m' c (x >>= fun a => pure (f a)) (y >>= fun b => pure (f' b)) T c₂ :=
  .bind hx fun a b hab => .ret (h a b hab) hc

theorem more (hx : S.Pairs inside m m' c x y R c₁) (hc : c₂ ≤ c₁ := by decide) :
    S.Pairs inside m m' c x y R c₂ := by
  intro us us' h
  have hxy := hx us us' h
  unfold PairsFrom at hxy ⊢
  cases hrun : x.run us <;> cases hrun' : y.run us' <;> rw [hrun, hrun'] at hxy
  case ok.ok p q => exact ⟨hxy.1, hxy.2.beside, by have := hxy.2.left; omega, by have := hxy.2.right; omega⟩
  case error.error => exact hxy
  all_goals exact hxy.elim

theorem fail :
    S.Pairs inside m m' c (Parser.fail stop what) (Parser.fail stop' what) R c₁ := by
  intro us us' h
  obtain ⟨rfl, rfl⟩ | ⟨t, t', us, us', rfl, rfl, hspan⟩ := h.beside.lists
  · exact ⟨rfl, S.ends⟩
  · exact ⟨rfl, hspan⟩

theorem failThen {l : β → Parser δ} :
    S.Pairs inside m m' c (Parser.fail stop what >>= k) (Parser.fail stop' what >>= l) T c₁ := by
  have hfail : S.Pairs inside m m' c (Parser.fail stop what) (Parser.fail stop' what)
    (fun (_ : α) (_ : β) => False) 0 := .fail
  exact .bind hfail fun _ _ h => h.elim

theorem raise {e e' : ParseError} (he : e' = e.moved e'.span) (hspan : S.spans e.span e'.span) :
    S.Pairs inside m m' c (throw e) (throw e') R c₁ := fun _ _ _ => ⟨he, hspan⟩

theorem peek {k : List Token → Parser γ}
    (h : ∀ us us', S.At inside m m' c us us' → S.PairsFrom m m' c₁ us us' (k us) (l us') T) :
    S.Pairs inside m m' c (get >>= k) (get >>= l) T c₁ := h

theorem next {k : List Token → Parser γ} (hnil : S.Pairs false m m' c (k []) (l []) T c₁)
    (hcons : ∀ t t' us us', S.At false m m' c (t :: us) (t' :: us') →
      S.PairsFrom m m' c₁ (t :: us) (t' :: us') (k (t :: us)) (l (t' :: us')) T) :
    S.Pairs false m m' c (get >>= k) (get >>= l) T c₁ := by
  intro us us' h
  obtain ⟨rfl, rfl⟩ | ⟨t, t', us, us', rfl, rfl, -⟩ := h.beside.lists
  · exact hnil [] [] h
  · exact hcons t t' us us' h

end

end Pairs

section
variable {us us' : List Token} {inside : Bool}

theorem Beside.head?_isSymbol (h : S.Beside false us us') (text : String) :
    us.head?.any (·.isSymbol text) = us'.head?.any (·.isSymbol text) := by
  obtain ⟨rfl, rfl⟩ | ⟨t, t', us, us', rfl, rfl, -⟩ := h.lists
  · rfl
  · exact congrFun (isSymbol_eq h.head) text

theorem Beside.head?_text (h : S.Beside false us us') (text : String) :
    us.head?.any (·.text = text) = us'.head?.any (·.text = text) := by
  obtain ⟨rfl, rfl⟩ | ⟨t, t', us, us', rfl, rfl, -⟩ := h.lists
  · rfl
  · rw [head?_cons, head?_cons, Option.any_some, Option.any_some, S.text_eq h.head]

theorem Beside.endsParameters_eq (h : S.Beside inside us us') : endsParameters us = endsParameters us' := by
  induction h with
  | nil => rfl
  | cons ht _ hus ih => rw [endsParameters, endsParameters, S.kind_eq ht, S.text_eq ht, hus.head?_text, ih]
  | @opening _ t t' us us' ht hopening _ ih =>
    have hends : ∀ {t : Token} {us : List Token}, t.IsPunct "(" → endsParameters (t :: us) = false := by
      rintro ⟨_, _, _⟩ us ⟨rfl, rfl⟩
      rfl
    rw [hends hopening, hends ⟨S.kind_eq ht ▸ hopening.1, S.text_eq ht ▸ hopening.2⟩]
  | numbers h =>
    rw [(S.begins h).1.endsParameters_eq, (S.begins h).2.endsParameters_eq]

theorem Beside.startsLambda_eq (h : S.Beside false us us') : startsLambda us = startsLambda us' := by
  obtain ⟨rfl, rfl⟩ | ⟨t, t', us, us', rfl, rfl, -⟩ := h.lists
  · rfl
  · rw [startsLambda, startsLambda, isSymbol_eq h.head, h.tail.endsParameters_eq]

end

section
variable {α β : Type} {t t' : Token} {us us' : List Token} {R : α → β → Prop} {inside : Bool} {m m' c c₁ : Nat}

theorem PairsFrom.of {x : Parser α} {y : Parser β} (h : S.At inside m m' c us us')
    (hxy : S.Pairs inside m m' c x y R c₁) :
    S.PairsFrom m m' c₁ us us' x y R := hxy us us' h

theorem PairsFrom.sees {text : String} {k : Bool → Parser α} {l : Bool → Parser β} (h : S.At false m m' c us us')
    (hk : S.PairsFrom m m' c₁ us us' (k (us.head?.any (·.isSymbol text))) (l (us.head?.any (·.isSymbol text))) R) :
    S.PairsFrom m m' c₁ us us' (Parser.sees text >>= k) (Parser.sees text >>= l) R := by
  nth_rewrite 2 [h.beside.head?_isSymbol] at hk
  exact hk

theorem PairsFrom.rest {k : PUnit → Parser α} {l : PUnit → Parser β} {vs vs' : List Token}
    (h : S.At inside m m' c us us') (hk : S.Pairs inside m m' c (k ()) (l ()) R c₁) :
    S.PairsFrom m m' c₁ vs vs' (set us >>= k) (set us' >>= l) R := hk us us' h

end

theorem not_isPunct_of_isSymbol {t : Token} {text : String} (h : t.isSymbol text = true)
    (htext : text ≠ "(" := by decide) :
    ¬t.IsPunct "(" := by
  rintro ⟨-, hopening⟩
  exact htext ((Token.eq_of_isSymbol h).symm.trans hopening)

theorem not_isPunct_of_any {t : Token} {texts : List String} (h : texts.any t.isSymbol = true)
    (htexts : "(" ∉ texts := by decide) : ¬t.IsPunct "(" := by
  obtain ⟨text, hmem, ht⟩ := any_eq_true.mp h
  exact not_isPunct_of_isSymbol ht fun htext => htexts (htext ▸ hmem)

theorem not_isPunct_of_kind {t : Token} {kind : TokenKind} (h : t.kind = kind)
    (hkind : kind ≠ .punct := by decide) : ¬t.IsPunct "(" :=
  fun hopening => hkind (h.symm.trans hopening.1)

theorem Beside.behind {us us' : List Token} {text : String} (h : S.Beside false us us')
    (hsees : us.head?.any (·.isSymbol text) = true) (htext : text ≠ "(" := by decide) :
    S.Beside false us.tail us'.tail := by
  obtain ⟨rfl, rfl⟩ | ⟨t, t', us, us', rfl, rfl, -⟩ := h.lists
  · exact .nil
  · exact h.after (not_isPunct_of_isSymbol hsees htext)

namespace Pairs

variable {γ δ : Type} {T : γ → δ → Prop} {text : String} {m m' c c₁ : Nat}

theorem sees {k : Bool → Parser γ} {l : Bool → Parser δ}
    (hk : ∀ seen, S.Pairs false m m' c (k seen) (l seen) T c₁) :
    S.Pairs false m m' c (Parser.sees text >>= k) (Parser.sees text >>= l) T c₁ := by
  intro us us' h
  exact .sees h (hk _ us us' h)

theorem seesClosing {k : Bool → Parser γ} {l : Bool → Parser δ}
    (htrue : S.Pairs false m m' c (k true) (l true) T c₁)
    (hfalse : S.Pairs true m m' c (k false) (l false) T c₁) :
    S.Pairs true m m' c (Parser.sees ")" >>= k) (Parser.sees ")" >>= l) T c₁ := by
  intro us us' h
  obtain houtside | ⟨vs, vs', hnumbers, -⟩ := h.beside.outside
  · refine .sees ⟨houtside, h.left, h.right⟩ ?_
    cases us.head?.any (·.isSymbol ")") with
    | true => exact htrue us us' ⟨houtside, h.left, h.right⟩
    | false => exact hfalse us us' h
  · show S.PairsFrom m m' c₁ us us' (k (us.head?.any (·.isSymbol ")"))) (l (us'.head?.any (·.isSymbol ")"))) T
    rw [(S.begins hnumbers).1.not_closing, (S.begins hnumbers).2.not_closing]
    exact hfalse us us' h

theorem takes {k : Option Token → Parser γ} {l : Option Token → Parser δ}
    (hnone : S.Pairs false m m' c (k none) (l none) T c₁)
    (hsome : ∀ t t' us us', S.At false m m' c (t :: us) (t' :: us') → t.isSymbol text = true →
      S.PairsFrom m m' c₁ us us' (k (some t)) (l (some t')) T) :
    S.Pairs false m m' c (Parser.accept? text >>= k) (Parser.accept? text >>= l) T c₁ := by
  intro us us' h
  obtain ⟨rfl, rfl⟩ | ⟨t, t', us, us', rfl, rfl, -⟩ := h.beside.lists
  · exact hnone [] [] h
  · have hsymbol := isSymbol_eq h.beside.head
    unfold PairsFrom
    rw [StateT.run_bind, StateT.run_bind]
    by_cases ht : t.isSymbol text = true
    · have hrun : (Parser.accept? text).run (t :: us) = _ := Goes.accept? ht
      have hrun' : (Parser.accept? text).run (t' :: us') = _ := Goes.accept? (hsymbol ▸ ht)
      rw [hrun, hrun']
      exact hsome t t' us us' h ht
    · rw [Bool.not_eq_true] at ht
      have ht' : t'.isSymbol text = false := hsymbol ▸ ht
      have hrun : (Parser.accept? text).run (t :: us) = _ := Goes.accept?_none ht
      have hrun' : (Parser.accept? text).run (t' :: us') = _ := Goes.accept?_none ht'
      rw [hrun, hrun']
      exact hnone _ _ h

theorem accept? {k : Option Token → Parser γ} {l : Option Token → Parser δ}
    (hnone : S.Pairs false m m' c (k none) (l none) T c₁)
    (hsome : ∀ t t', S.Pairs false m m' (c + 1) (k (some t)) (l (some t')) T c₁)
    (htext : text ≠ "(" := by decide) :
    S.Pairs false m m' c (Parser.accept? text >>= k) (Parser.accept? text >>= l) T c₁ :=
  .takes hnone fun t t' us us' h ht => hsome t t' us us' (h.after (not_isPunct_of_isSymbol ht htext))

theorem accept {k : Token → Parser γ} {l : Token → Parser δ}
    (hk : ∀ t t', S.Pairs false m m' (c + 1) (k t) (l t') T c₁) (htext : text ≠ "(" := by decide) :
    S.Pairs false m m' c (Parser.accept stop text >>= k) (Parser.accept stop' text >>= l) T c₁ := by
  unfold Parser.accept
  rw [bind_assoc, bind_assoc]
  exact .accept? .failThen (fun t t' => hk t t') htext

theorem acceptOpening {k : Token → Parser γ} {l : Token → Parser δ}
    (hk : ∀ t t', S.Pairs true m m' (c + 1) (k t) (l t') T c₁) :
    S.Pairs false m m' c (Parser.accept stop "(" >>= k) (Parser.accept stop' "(" >>= l) T c₁ := by
  unfold Parser.accept
  rw [bind_assoc, bind_assoc]
  exact .takes .failThen fun t t' us us' h _ => hk t t' us us' h.tail

theorem operation {p : Token → Bool} {k : Tree → Parser γ} {l : Tree → Parser δ} {e : Parser γ} {f : Parser δ}
    (hp : ∀ t t' : Token, t.isSymbol = t'.isSymbol → p t = p t') (hopening : ∀ t, p t = true → ¬t.IsPunct "(")
    (hk : ∀ op op', S.trees op op' → S.Pairs false m m' (c + 1) (k op) (l op') T c₁)
    (he : S.Pairs false m m' c e f T c₁) :
    S.Pairs false m m' c ((do return (← get).head?.any p) >>=
      fun seen => if seen = true then operator stop >>= k else e)
      ((do return (← get).head?.any p) >>= fun seen => if seen = true then operator stop' >>= l else f) T c₁ := by
  intro us us' h
  obtain ⟨rfl, rfl⟩ | ⟨t, t', us, us', rfl, rfl, -⟩ := h.beside.lists
  · exact he [] [] h
  · show S.PairsFrom m m' c₁ (t :: us) (t' :: us') (if p t = true then operator stop >>= k else e)
      (if p t' = true then operator stop' >>= l else f) T
    rw [← hp t t' (isSymbol_eq h.beside.head)]
    split
    next ht =>
      exact hk (.leaf .operator t.span) (.leaf .operator t'.span) (S.leaf h.beside.head fun h => by cases h) us us'
        (h.after (hopening t ht))
    next => exact he _ _ h

end Pairs

/-! ## The parsers -/

variable (S)

theorem pairs_identifier (what : Expectation) {inside : Bool} {m m' c : Nat} :
    S.Pairs inside m m' c (identifier stop what) (identifier stop' what) S.trees (c + 1) := by
  have outside : S.Pairs false m m' c (identifier stop what) (identifier stop' what) S.trees (c + 1) := by
    unfold identifier
    refine .next .fail fun t t' us us' h => ?_
    have htokens := h.beside.head
    dsimp only
    rw [← S.kind_eq htokens, ← S.text_eq htokens]
    split
    next ht =>
      exact .rest (h.after (not_isPunct_of_kind ht.1)) (.ret (S.leaf htokens fun _ => ht.1) (Nat.le_refl _))
    next => exact .of h .fail
  intro us us' h
  obtain houtside | ⟨vs, vs', hnumbers, -⟩ := h.beside.outside
  · exact outside us us' ⟨houtside, h.left, h.right⟩
  · obtain ⟨⟨t, us, rfl, ht⟩, ⟨t', us', rfl, ht'⟩⟩ := S.begins hnumbers
    have hfail : ∀ {t : Token} {us : List Token} {stop : Finish} {what : Expectation},
        (t.kind = .number ∨ t.IsPunct "(" ∨ t.IsPunct "-") →
        (identifier stop what).run (t :: us) = .error (.expected what t.span) := by
      intro t us stop what ht
      have hkind : ¬(t.kind = .identifier ∧ t.text ∉ Token.keywords) := by
        rintro ⟨hkind, -⟩
        obtain ht | ⟨ht, -⟩ | ⟨ht, -⟩ := ht <;> rw [hkind] at ht <;> cases ht
      unfold identifier
      show (if t.kind = .identifier ∧ t.text ∉ Token.keywords then _ else Parser.fail stop what :
        Parser Tree) (t :: us) = _
      rw [if_neg hkind]
      rfl
    unfold PairsFrom
    rw [hfail ht, hfail ht']
    exact ⟨rfl, S.first hnumbers⟩

theorem pairs_moreParameters (n : Nat) :
    S.Fits false 1 0 n (moreParameters stop n) (moreParameters stop') (Forall₂ S.trees) := by
  induction n with
  | zero => exact .zero
  | succ n ih =>
    refine .succ fun n' m m' hn hn' => ?_
    unfold moreParameters
    refine .accept? (.ret .nil) fun _ _ => ?_
    exact .bind (S.pairs_identifier _) fun _ _ hname =>
      .last (ih.called hn hn') (fun _ _ hmore => .cons hname hmore)

theorem pairs_parameterList (n : Nat) : S.Fits false 0 1 n (parameterList stop n) (parameterList stop') S.trees := by
  intro n' m m' hn hn'
  have hmore := (S.pairs_moreParameters n).called (c := 2) (k := 1) (Nat.succ_le_succ hn) (Nat.succ_le_succ hn')
  unfold parameterList
  refine .acceptOpening fun _ _ => .seesClosing ?_ ?_
  · rw [if_pos rfl, if_pos rfl, pure_bind, pure_bind]
    exact .accept fun _ _ => .ret (S.node rfl .nil)
  · refine .bind (S.pairs_identifier _) fun _ _ hname => .bind hmore fun _ _ hmore => ?_
    rw [pure_bind, pure_bind]
    exact .accept fun _ _ => .ret (S.node rfl (.cons hname hmore))

mutual

theorem pairs_statement : ∀ n, S.Fits false 8 1 n (statement stop n) (statement stop') S.trees
  | 0 => .zero
  | n + 1 => .succ fun n' m m' hn hn' => by
    have ended : ∀ {c}, 1 ≤ c → ∀ t t', S.trees t t' →
      S.Pairs false m m' c (do let _ ← accept? ";"; return t)
        (do let _ ← accept? ";"; return t') S.trees 1 :=
      fun hc t t' h => .accept? (.ret h hc) fun _ _ => .ret h (Nat.le_succ_of_le hc)
    unfold statement
    dsimp only
    -- The tokens stay at hand: `let` decides by the token behind it.
    intro us us' h
    iterate 7 refine .sees h ?_
    split
    next hlet =>
      show S.PairsFrom m m' 1 us us' (if us.tail.head?.any (·.text = leftBrace) = true then _ else _)
        (if us'.tail.head?.any (·.text = leftBrace) = true then _ else _) _
      rw [← (h.beside.behind hlet).head?_text]
      split
      · exact .of h (.bind ((pairs_letIn n).called hn hn') (ended (by decide)))
      · exact .of h (.bind ((pairs_declaration rfl (by decide) n).called hn hn') (ended (by decide)))
    refine .of h ?_
    split
    · exact .bind ((pairs_declaration rfl (by decide) n).called hn hn') (ended (by decide))
    split
    · exact .bind ((pairs_functionDeclaration n).called hn hn') (ended (by decide))
    split
    · exact .bind ((pairs_ifStatement rfl n).called hn hn') (ended (by decide))
    split
    · refine .accept fun _ _ => .bind ((pairs_expression n).called hn hn') fun _ _ hvalue => ?_
      rw [pure_bind, pure_bind]
      exact ended (by decide) _ _ (S.node rfl (.cons hvalue .nil))
    split
    · refine .accept fun _ _ => .bind ((pairs_argumentList n).called hn hn') fun _ _ hargs => ?_
      rw [pure_bind, pure_bind]
      exact ended (by decide) _ _ (S.node rfl (.cons hargs .nil))
    split
    · exact .bind ((pairs_block n).called hn hn') (ended (by decide))
    · refine .bind ((pairs_expression n).called hn hn') fun _ _ hvalue => ?_
      rw [pure_bind, pure_bind]
      exact ended (by decide) _ _ (S.node rfl (.cons hvalue .nil))

theorem pairs_declaration {kind : Tree.Kind} (hkind : kind.isLeaf = false) {keyword : String}
    (hkeyword : keyword ≠ "(") :
    ∀ n, S.Fits false 1 1 n (declaration stop kind keyword n) (declaration stop' kind keyword) S.trees
  | 0 => .zero
  | n + 1 => .succ fun n' m m' hn hn' => by
    unfold declaration
    refine .accept (fun _ _ => ?_) hkeyword
    exact .bind (S.pairs_identifier _) fun _ _ hname => .accept fun _ _ =>
      .last ((pairs_expression n).called hn hn') fun _ _ hvalue => S.node hkind (.cons hname (.cons hvalue .nil))

theorem pairs_letIn : ∀ n, S.Fits false 1 1 n (letIn stop n) (letIn stop') S.trees
  | 0 => .zero
  | n + 1 => .succ fun n' m m' hn hn' => by
    unfold letIn
    exact .accept fun _ _ => .accept fun _ _ =>
      .bind ((pairs_letInDeclarations n).called hn hn') fun _ _ hdecls =>
      .accept fun _ _ => .accept fun _ _ =>
      .last ((pairs_block n).called hn hn') (fun _ _ hbody => S.node rfl (rel_append hdecls (.cons hbody .nil)))

theorem pairs_letInDeclarations : ∀ n,
    S.Fits false 2 0 n (letInDeclarations stop n) (letInDeclarations stop') (Forall₂ S.trees)
  | 0 => .zero
  | n + 1 => .succ fun n' m m' hn hn' => by
    have more : ∀ t t', S.trees t t' → S.Pairs false m m' 1
        (do let _ ← accept? ";"; return t :: (← letInDeclarations stop n))
        (do let _ ← accept? ";"; return t' :: (← letInDeclarations stop' n')) (Forall₂ S.trees) 0 := by
      intro t t' h
      exact .accept?
        (.last ((pairs_letInDeclarations n).called hn hn') (fun _ _ hts => .cons h hts)) fun _ _ =>
        .last ((pairs_letInDeclarations n).called hn hn') (fun _ _ hts => .cons h hts)
    unfold letInDeclarations
    refine .sees fun _ => ?_
    dsimp only
    split
    · exact .ret .nil
    iterate 2 refine .sees fun _ => ?_
    split
    · exact .bind ((pairs_declaration rfl (by decide) n).called hn hn') more
    split
    · exact .bind ((pairs_declaration rfl (by decide) n).called hn hn') more
    · exact .failThen

theorem pairs_functionDeclaration : ∀ n,
    S.Fits false 1 1 n (functionDeclaration stop n) (functionDeclaration stop') S.trees
  | 0 => .zero
  | n + 1 => .succ fun n' m m' hn hn' => by
    unfold functionDeclaration
    exact .accept fun _ _ => .bind (S.pairs_identifier _) fun _ _ hname =>
      .bind ((S.pairs_parameterList n).called hn hn') fun _ _ hparams =>
      .last ((pairs_block n).called hn hn')
        (fun _ _ hbody => S.node rfl (.cons hname (.cons hparams (.cons hbody .nil))))

theorem pairs_ifStatement {kind : Tree.Kind} (hkind : kind.isLeaf = false) : ∀ n,
    S.Fits false 1 1 n (ifStatement stop kind n) (ifStatement stop' kind) S.trees
  | 0 => .zero
  | n + 1 => .succ fun n' m m' hn hn' => by
    unfold ifStatement
    refine .accept fun _ _ => .acceptOpening fun _ _ =>
      .bind ((pairs_expression n).called hn hn') fun _ _ htest =>
      .accept fun _ _ => .bind ((pairs_block n).called hn hn') fun _ _ hbody => ?_
    dsimp only
    refine .accept? (.ret (S.node hkind (.cons htest (.cons hbody .nil)))) fun _ _ => ?_
    dsimp only
    refine .sees fun _ => ?_
    split
    · exact .last ((pairs_ifStatement rfl n).called hn hn')
        (fun _ _ hlink => S.node hkind (.cons htest (.cons hbody (.cons hlink .nil))))
    · refine .bind ((pairs_block n).called hn hn') fun _ _ hother => ?_
      rw [pure_bind, pure_bind]
      exact .ret (S.node hkind (.cons htest (.cons hbody (.cons (S.node rfl (.cons hother .nil)) .nil))))

theorem pairs_block : ∀ n, S.Fits false 1 1 n (block stop n) (block stop') S.trees
  | 0 => .zero
  | n + 1 => .succ fun n' m m' hn hn' => by
    unfold block
    exact .accept fun _ _ => .bind ((pairs_blockStatements n).called hn hn') fun _ _ hts =>
      .accept fun _ _ => .ret (S.node rfl hts)

theorem pairs_blockStatements : ∀ n,
    S.Fits false 9 0 n (blockStatements stop n) (blockStatements stop') (Forall₂ S.trees)
  | 0 => .zero
  | n + 1 => .succ fun n' m m' hn hn' => by
    unfold blockStatements
    refine .sees fun _ => ?_
    split
    · exact .ret .nil
    refine .next .fail fun t t' us us' h => ?_
    exact .of h (.bind ((pairs_statement n).called hn hn') fun _ _ ht =>
      .last ((pairs_blockStatements n).called hn hn') (fun _ _ hts => .cons ht hts))

theorem pairs_argumentList : ∀ n, S.Fits false 1 1 n (argumentList stop n) (argumentList stop') S.trees
  | 0 => .zero
  | n + 1 => .succ fun n' m m' hn hn' => by
    unfold argumentList
    exact .acceptOpening fun _ _ => .bind ((pairs_expressions (fun _ => rfl) n).called hn hn') fun _ _ hts =>
      .accept fun _ _ => .ret (S.node rfl hts)

theorem pairs_expressions {inside : Bool} {close : String} (hclose : inside = true → close = ")") : ∀ n,
    S.Fits inside 8 0 n (expressions stop close n) (expressions stop' close) (Forall₂ S.trees)
  | 0 => .zero
  | n + 1 => .succ fun n' m m' hn hn' => by
    have items : ∀ {inside : Bool}, S.Pairs inside m m' 0
        (do let item ← Parser.expression stop n; return item :: (← moreExpressions stop n))
        (do let item ← Parser.expression stop' n'; return item :: (← moreExpressions stop' n'))
          (Forall₂ S.trees) 0 :=
      .bind ((pairs_expression n).called hn hn') fun _ _ ht =>
        .last ((pairs_moreExpressions n).called hn hn') (fun _ _ hts => .cons ht hts)
    unfold expressions
    cases inside with
    | true =>
      obtain rfl := hclose rfl
      exact .seesClosing (.ret .nil) items
    | false =>
      refine .sees fun _ => ?_
      split
      · exact .ret .nil
      · exact items

theorem pairs_moreExpressions : ∀ n,
    S.Fits false 1 0 n (moreExpressions stop n) (moreExpressions stop') (Forall₂ S.trees)
  | 0 => .zero
  | n + 1 => .succ fun n' m m' hn hn' => by
    unfold moreExpressions
    refine .accept? (.ret .nil) fun _ _ => ?_
    exact .bind ((pairs_expression n).called hn hn') fun _ _ ht =>
      .last ((pairs_moreExpressions n).called hn hn') (fun _ _ hts => .cons ht hts)

theorem pairs_expression {inside : Bool} :
    ∀ n, S.Fits inside 7 1 n (Parser.expression stop n) (Parser.expression stop') S.trees
  | 0 => .zero
  | n + 1 => .succ fun n' m m' hn hn' => by
    have outside : S.Pairs false m m' 0 (Parser.expression stop (n + 1))
      (Parser.expression stop' (n' + 1)) S.trees 1 := by
      unfold Parser.expression
      refine .peek fun us us' h => ?_
      rw [← h.beside.startsLambda_eq]
      split
      · exact .of h ((pairs_lambda n).called hn hn')
      · exact .of h ((pairs_comparison n).called hn hn')
    rintro us us' ⟨hbeside, hleft, hright⟩
    obtain houtside | ⟨vs, vs', hnumbers, hvs⟩ := hbeside.outside
    · exact outside us us' ⟨houtside, hleft, hright⟩
    · have hbudget : 10 * us.length + 7 ≤ n + 1 := by omega
      have hbudget' : 10 * us'.length + 7 ≤ n' + 1 := by omega
      obtain ⟨t, t', hgoes, hgoes', htrees⟩ := S.expression hnumbers hbudget hbudget'
      have hshorter := S.shorter hnumbers
      unfold PairsFrom
      rw [hgoes, hgoes']
      exact ⟨htrees, hvs, by omega, by omega⟩

theorem pairs_lambda : ∀ n, S.Fits false 1 1 n (lambda stop n) (lambda stop') S.trees
  | 0 => .zero
  | n + 1 => .succ fun n' m m' hn hn' => by
    unfold lambda
    refine .bind ((S.pairs_parameterList n).called hn hn') fun _ _ hparams =>
      .accept fun _ _ => .sees fun _ => ?_
    dsimp only
    split
    · exact .last ((pairs_block n).called hn hn') (fun _ _ hbody => S.node rfl (.cons hparams (.cons hbody .nil)))
    · exact .last ((pairs_expression n).called hn hn')
        (fun _ _ hvalue => S.node rfl (.cons hparams (.cons hvalue .nil)))

theorem pairs_comparison : ∀ n, S.Fits false 6 1 n (comparison stop n) (comparison stop') S.trees
  | 0 => .zero
  | n + 1 => .succ fun n' m m' hn hn' => by
    unfold comparison
    refine .bind ((pairs_additive n).called hn hn') fun _ _ hleft =>
      .operation (fun t t' h => by rw [h]) (fun _ h => not_isPunct_of_any h) ?_ (.ret hleft)
    exact fun _ _ hop => .last ((pairs_additive n).called hn hn')
      (fun _ _ hright => S.node rfl (.cons hleft (.cons hop (.cons hright .nil))))

theorem pairs_additive : ∀ n, S.Fits false 5 1 n (additive stop n) (additive stop') S.trees
  | 0 => .zero
  | n + 1 => .succ fun n' m m' hn hn' => by
    unfold additive
    exact .bind ((pairs_term n).called hn hn') fun _ _ hleft =>
      (pairs_additiveTail hleft n).called hn hn'

theorem pairs_additiveTail {left left' : Tree} (hleft : S.trees left left') : ∀ n,
    S.Fits false 1 0 n (additiveTail stop left n) (additiveTail stop' left') S.trees
  | 0 => .zero
  | n + 1 => .succ fun n' m m' hn hn' => by
    unfold additiveTail
    refine .operation (fun t t' h => by rw [h]) (fun _ h => not_isPunct_of_any h) (fun _ _ hop => ?_)
      (.ret hleft)
    exact .bind ((pairs_term n).called hn hn') fun _ _ hright =>
      .more ((pairs_additiveTail (S.node rfl (.cons hleft (.cons hop (.cons hright .nil)))) n).called hn hn')

theorem pairs_term : ∀ n, S.Fits false 4 1 n (term stop n) (term stop') S.trees
  | 0 => .zero
  | n + 1 => .succ fun n' m m' hn hn' => by
    unfold term
    exact .bind ((pairs_power n).called hn hn') fun _ _ hleft =>
      (pairs_termTail hleft n).called hn hn'

theorem pairs_termTail {left left' : Tree} (hleft : S.trees left left') : ∀ n,
    S.Fits false 1 0 n (termTail stop left n) (termTail stop' left') S.trees
  | 0 => .zero
  | n + 1 => .succ fun n' m m' hn hn' => by
    unfold termTail
    refine .operation (fun t t' h => by rw [h]) (fun _ h => not_isPunct_of_any h) (fun _ _ hop => ?_)
      (.ret hleft)
    exact .bind ((pairs_power n).called hn hn') fun _ _ hright =>
      .more ((pairs_termTail (S.node rfl (.cons hleft (.cons hop (.cons hright .nil)))) n).called hn hn')

theorem pairs_power : ∀ n, S.Fits false 3 1 n (power stop n) (power stop') S.trees
  | 0 => .zero
  | n + 1 => .succ fun n' m m' hn hn' => by
    unfold power
    refine .bind ((pairs_unary n).called hn hn') fun _ _ hbase =>
      .operation (fun t t' h => by rw [h]) (fun _ h => not_isPunct_of_isSymbol h) ?_ (.ret hbase)
    exact fun _ _ hop => .last ((pairs_power n).called hn hn')
      (fun _ _ hexponent => S.node rfl (.cons hbase (.cons hop (.cons hexponent .nil))))

theorem pairs_unary : ∀ n, S.Fits false 2 1 n (unary stop n) (unary stop') S.trees
  | 0 => .zero
  | n + 1 => .succ fun n' m m' hn hn' => by
    unfold unary
    refine .takes ((pairs_primary n).called hn hn') fun u u' us us' h hu => ?_
    have hminus : ¬u.IsPunct "(" := not_isPunct_of_isSymbol hu
    have hrest := h.after hminus
    dsimp only
    -- The sign is still at hand here: what it is joined with decides what is read.
    obtain ⟨rfl, rfl⟩ | ⟨t, t', us, us', rfl, rfl, hspan⟩ := hrest.beside.lists
    · exact ⟨rfl, S.span h.beside.head⟩
    · have htokens := hrest.beside.head
      show S.PairsFrom m m' 1 (t :: us) (t' :: us') (if t.kind = .number then _ else _)
        (if t'.kind = .number then _ else _) _
      rw [← S.kind_eq htokens]
      split
      next ht =>
        refine .rest (hrest.after (not_isPunct_of_kind ht)) (.ret ?_)
        obtain ⟨⟩ | ⟨-, hsign, -⟩ | ⟨-, hopening, -⟩ := h.beside
        · exact hsign t t' rfl rfl hu
        · exact absurd hopening hminus
      next => exact .of hrest (.raise rfl (S.join (S.span h.beside.head) hspan))

theorem pairs_primary : ∀ n, S.Fits false 1 1 n (primary stop n) (primary stop') S.trees
  | 0 => .zero
  | n + 1 => .succ fun n' m m' hn hn' => by
    unfold primary
    refine .next .fail fun t t' us us' h => ?_
    have htokens := h.beside.head
    have hnumber : numberKind t = numberKind t' := by rw [numberKind, numberKind, S.text_eq htokens]
    dsimp only
    rw [← S.kind_eq htokens, ← S.text_eq htokens, ← isSymbol_eq htokens, ← hnumber]
    split
    next ht =>
      exact .rest (h.after (not_isPunct_of_kind ht))
        (.ret (S.leaf htokens fun hkind => absurd hkind (numberKind_ne_identifier t)))
    next ht =>
      refine .rest (h.after (not_isPunct_of_kind ht)) ?_
      split
      · exact .ret (S.leaf htokens fun hkind => by cases hkind)
      · exact .raise rfl (S.span htokens)
    next =>
      refine .of h (.bind (S.pairs_identifier _) fun _ _ hname => .sees fun _ => ?_)
      split
      · exact .last ((pairs_argumentList n).called hn hn')
          (fun _ _ hargs => S.node rfl (.cons hname (.cons hargs .nil)))
      · refine .accept? (.ret hname) fun _ _ =>
          .bind ((pairs_expression n).called hn hn') fun _ _ hindex => ?_
        exact .accept fun _ _ => .ret (S.node rfl (.cons hname (.cons hindex .nil)))
    next =>
      split
      next ht =>
        exact .rest (h.after (not_isPunct_of_isSymbol ht))
          (.bind ((pairs_expressions (by decide) n).called hn hn') fun _ _ hts =>
            .accept fun _ _ => .ret (S.node rfl hts))
      split
      · exact .rest h.tail (.bind ((pairs_expression n).called hn hn') fun _ _ hinner =>
          .accept fun _ _ => .ret hinner)
      · exact .of h .fail

end

theorem pairs_program : ∀ n, S.Fits false 9 0 n (program stop n) (program stop') (Forall₂ S.trees)
  | 0 => .zero
  | n + 1 => .succ fun n' m m' hn hn' => by
    unfold program
    refine .next (.ret .nil) fun t t' us us' h => ?_
    exact .of h (.bind ((S.pairs_statement n).called hn hn') fun _ _ ht =>
      .last ((pairs_program n).called hn hn') (fun _ _ hts => .cons ht hts))

end Simulation
end Parser

theorem Tree.parse_pairs {source source' : List Char}
    (S : Parser.Simulation (.ofSource source) (.ofSource source'))
    (h : S.Beside false ((Token.scan source).filter (·.kind ≠ .comment))
      ((Token.scan source').filter (·.kind ≠ .comment))) :
    (∃ t t', Tree.parse source = .ok t ∧ Tree.parse source' = .ok t' ∧ S.trees t t') ∨
      ∃ e e', Tree.parse source = .error e ∧ Tree.parse source' = .error e' ∧ e.kind = e'.kind ∧
        S.spans e.span e'.span := by
  unfold Tree.parse
  dsimp only
  generalize (Token.scan source).filter (·.kind ≠ .comment) = us at *
  generalize (Token.scan source').filter (·.kind ≠ .comment) = us' at *
  have hprogram := S.pairs_program (Parser.budget us) (Parser.budget us') us.length us'.length
    (by unfold Parser.budget; omega)
    (by unfold Parser.budget; omega) us us' ⟨h, Nat.le_refl _, Nat.le_refl _⟩
  unfold Parser.Simulation.PairsFrom StateT.run at hprogram
  split at hprogram
  next hx hy =>
    rw [hx, hy]
    exact .inl ⟨_, _, rfl, rfl, S.node rfl hprogram.1⟩
  next hx hy =>
    rw [hx, hy]
    exact .inr ⟨_, _, rfl, rfl, by rw [hprogram.1, ParseError.kind_moved], hprogram.2⟩
  next => exact hprogram.elim

end Bies
