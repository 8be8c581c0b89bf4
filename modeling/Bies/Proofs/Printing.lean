import Bies.Proofs.TokenText
import Bies.Tree.Parse

/-!
# Printing

An outline is a tree with the texts of its tokens in the place of spans. It is printed with a blank between
tokens, a semicolon behind every statement and every declaration of a `let ... in`, and parentheses around every
operand that is an operation or a lambda. What is printed scans to the tokens that were printed.
-/

namespace Bies

/-! ## Outlines -/

inductive Outline where
  | node (kind : Tree.Kind) (text : String) (children : List Outline)

mutual

def Tree.outline (source : List Char) : Tree → Outline
  | .node kind span children =>
    .node kind (if kind.isLeaf then span.text source else "") (Tree.outlines source children)

def Tree.outlines (source : List Char) : List Tree → List Outline
  | [] => []
  | t :: ts => t.outline source :: Tree.outlines source ts

end

namespace Outline

def kind : Outline → Tree.Kind
  | .node kind _ _ => kind

def leaf (kind : Tree.Kind) (text : String) : Outline := .node kind text []

def branch (kind : Tree.Kind) (children : List Outline) : Outline := .node kind "" children

/-! ## Words -/

def isCompound : Tree.Kind → Bool
  | .arithmetic | .comparison | .lambda => true
  | _ => false

def operand (kind : Tree.Kind) (words : List String) : List String :=
  if isCompound kind then "(" :: (words ++ [")"]) else words

mutual

def words : Outline → List String
  | .node kind text children =>
    match kind, children with
    | .program, statements => sequence statements
    | .letDeclaration, [name, value] => "let" :: (name.words ++ "=" :: value.words)
    | .constDeclaration, [name, value] => "const" :: (name.words ++ "=" :: value.words)
    | .letIn, parts => "let" :: leftBrace :: declarations parts
    | .functionDeclaration, [name, params, body] => "fun" :: (name.words ++ (params.words ++ body.words))
    | .parameterList, names => "(" :: (list names ++ [")"])
    | .lambda, [params, body] => params.words ++ "=>" :: body.words
    | .ifStatement, test :: body :: tail | .elseIf, test :: body :: tail =>
      "if" :: "(" :: (test.words ++ ")" :: (body.words ++ otherwise tail))
    | .elseStatement, [body] => body.words
    | .block, statements => leftBrace :: (sequence statements ++ [rightBrace])
    | .returnStatement, [value] => "return" :: value.words
    | .printStatement, [args] => "print" :: args.words
    | .expressionStatement, [value] => value.words
    | .comparison, [left, op, right] | .arithmetic, [left, op, right] =>
      operand left.kind left.words ++ (op.words ++ operand right.kind right.words)
    | .call, [name, args] => name.words ++ args.words
    | .argumentList, args => "(" :: (list args ++ [")"])
    | .listAccess, [name, index] => name.words ++ "[" :: (index.words ++ ["]"])
    | .listLiteral, items => "[" :: (list items ++ ["]"])
    | .identifier, [] | .integer, [] | .float, [] | .string, [] | .operator, [] => [text]
    | _, _ => []

def sequence : List Outline → List String
  | [] => []
  | o :: os => o.words ++ ";" :: sequence os

def declarations : List Outline → List String
  | [] => []
  | [body] => rightBrace :: "in" :: body.words
  | o :: os => o.words ++ ";" :: declarations os

def list : List Outline → List String
  | [] => []
  | o :: os => o.words ++ commas os

def commas : List Outline → List String
  | [] => []
  | o :: os => "," :: (o.words ++ commas os)

def otherwise : List Outline → List String
  | [tail] => "else" :: tail.words
  | _ => []

end

def spaced : List String → List Char
  | [] => []
  | [w] => w.toList
  | w :: ws => w.toList ++ ' ' :: spaced ws

def print (o : Outline) : List Char := spaced o.words

/-! ## Outlines of the language -/

def isName (text : String) : Bool :=
  match text.toList with
  | [] => false
  | c :: cs => isIdentifierStart c && cs.all isIdentifierPart && !Token.keywords.contains text

def areDigits (cs : List Char) : Bool := !cs.isEmpty && cs.all Char.isDigit

/-- What stands behind an opening quote: characters and escaped characters up to the closing quote, which is last. -/
def isQuoted : List Char → Bool
  | [] => false
  | ['"'] => true
  | '\\' :: _ :: cs => isQuoted cs
  | c :: cs => c ≠ '"' && c ≠ '\\' && isQuoted cs

inductive Form where
  | name
  | parameters
  | arguments
  | expression
  | declaration
  | statement
  | conditional (kind : Tree.Kind)
  | block
  | program

inductive WellFormed : Form → Outline → Prop
  | name {text : String} (h : isName text = true) : WellFormed .name (leaf .identifier text)
  | parameters {names : List Outline} (h : ∀ o ∈ names, WellFormed .name o) :
    WellFormed .parameters (branch .parameterList names)
  | arguments {args : List Outline} (h : ∀ o ∈ args, WellFormed .expression o) :
    WellFormed .arguments (branch .argumentList args)
  -- expressions
  | ofName {o : Outline} (h : WellFormed .name o) : WellFormed .expression o
  | integer {sign digits : List Char} (hsign : sign = [] ∨ sign = ['-']) (h : areDigits digits = true) :
    WellFormed .expression (leaf .integer (.ofList (sign ++ digits)))
  | float {sign whole decimals : List Char} (hsign : sign = [] ∨ sign = ['-']) (hwhole : areDigits whole = true)
    (hdecimals : areDigits decimals = true) :
    WellFormed .expression (leaf .float (.ofList (sign ++ (whole ++ '.' :: decimals))))
  | string {cs : List Char} (h : isQuoted cs = true) : WellFormed .expression (leaf .string (.ofList ('"' :: cs)))
  | arithmetic {left right : Outline} {op : String} (hleft : WellFormed .expression left)
    (hop : op ∈ ["+", "-", "*", "/", "%", "**"]) (hright : WellFormed .expression right) :
    WellFormed .expression (branch .arithmetic [left, leaf .operator op, right])
  | comparison {left right : Outline} {op : String} (hleft : WellFormed .expression left)
    (hop : op ∈ ["==", "!=", ">", ">=", "<", "<="]) (hright : WellFormed .expression right) :
    WellFormed .expression (branch .comparison [left, leaf .operator op, right])
  | call {name args : Outline} (hname : WellFormed .name name) (hargs : WellFormed .arguments args) :
    WellFormed .expression (branch .call [name, args])
  | access {name index : Outline} (hname : WellFormed .name name) (hindex : WellFormed .expression index) :
    WellFormed .expression (branch .listAccess [name, index])
  | listLiteral {items : List Outline} (h : ∀ o ∈ items, WellFormed .expression o) :
    WellFormed .expression (branch .listLiteral items)
  | lambda {params body : Outline} {form : Form} (hparams : WellFormed .parameters params)
    (hform : form = .block ∨ form = .expression) (hbody : WellFormed form body) :
    WellFormed .expression (branch .lambda [params, body])
  -- statements
  | letDeclaration {name value : Outline} (hname : WellFormed .name name) (hvalue : WellFormed .expression value) :
    WellFormed .declaration (branch .letDeclaration [name, value])
  | constDeclaration {name value : Outline} (hname : WellFormed .name name) (hvalue : WellFormed .expression value) :
    WellFormed .declaration (branch .constDeclaration [name, value])
  | ofDeclaration {o : Outline} (h : WellFormed .declaration o) : WellFormed .statement o
  | letIn {decls : List Outline} {body : Outline} (hdecls : ∀ o ∈ decls, WellFormed .declaration o)
    (hbody : WellFormed .block body) : WellFormed .statement (branch .letIn (decls ++ [body]))
  | function {name params body : Outline} (hname : WellFormed .name name) (hparams : WellFormed .parameters params)
    (hbody : WellFormed .block body) : WellFormed .statement (branch .functionDeclaration [name, params, body])
  | ofConditional {o : Outline} (h : WellFormed (.conditional .ifStatement) o) : WellFormed .statement o
  | ret {value : Outline} (h : WellFormed .expression value) : WellFormed .statement (branch .returnStatement [value])
  | print {args : Outline} (h : WellFormed .arguments args) : WellFormed .statement (branch .printStatement [args])
  | ofBlock {o : Outline} (h : WellFormed .block o) : WellFormed .statement o
  | ofExpression {value : Outline} (h : WellFormed .expression value) :
    WellFormed .statement (branch .expressionStatement [value])
  | ifThen {kind : Tree.Kind} {test body : Outline} (hkind : kind = .ifStatement ∨ kind = .elseIf)
    (htest : WellFormed .expression test) (hbody : WellFormed .block body) :
    WellFormed (.conditional kind) (branch kind [test, body])
  | ifElse {kind : Tree.Kind} {test body other : Outline} (hkind : kind = .ifStatement ∨ kind = .elseIf)
    (htest : WellFormed .expression test) (hbody : WellFormed .block body) (hother : WellFormed .block other) :
    WellFormed (.conditional kind) (branch kind [test, body, branch .elseStatement [other]])
  | ifElseIf {kind : Tree.Kind} {test body link : Outline} (hkind : kind = .ifStatement ∨ kind = .elseIf)
    (htest : WellFormed .expression test) (hbody : WellFormed .block body)
    (hlink : WellFormed (.conditional .elseIf) link) : WellFormed (.conditional kind) (branch kind [test, body, link])
  | block {statements : List Outline} (h : ∀ o ∈ statements, WellFormed .statement o) :
    WellFormed .block (branch .block statements)
  | program {statements : List Outline} (h : ∀ o ∈ statements, WellFormed .statement o) :
    WellFormed .program (branch .program statements)

/-! ## Scanning words -/

def symbols : List String :=
  [leftBrace, rightBrace, "(", ")", "[", "]", ",", ";", "=", "=>", "+", "-", "*", "/", "%", "**", "==", "!=", ">", ">=",
    "<", "<="]

inductive Lexical : TokenKind → List Char → Prop
  | word {c cs} (hc : isIdentifierStart c = true) (hcs : cs.all isIdentifierPart = true) :
    Lexical .identifier (c :: cs)
  | digits {c cs} (hc : c.isDigit = true) (hcs : cs.all Char.isDigit = true) :
    Lexical .number (c :: cs)
  | point {c d cs ds} (hc : c.isDigit = true) (hcs : cs.all Char.isDigit = true)
    (hd : d.isDigit = true) (hds : ds.all Char.isDigit = true) : Lexical .number (c :: (cs ++ '.' :: d :: ds))
  | quoted {cs} (h : isQuoted cs = true) : Lexical .string ('"' :: cs)
  | symbol {w} (h : w ∈ symbols) : Lexical .punct w.toList

def Ends (tail : List Char) : Prop := tail = [] ∨ ∃ cs, tail = ' ' :: cs

section
variable {p : Char → Bool} {cs source : List Char} {c : Char} {w : String} {ws : List String} {os : List Outline}

theorem Ends.head? {tail : List Char} (h : Ends tail) (hp : p ' ' = false) :
    ∀ c ∈ tail.head?, p c = false := by
  rcases h with rfl | ⟨rest, rfl⟩
  · exact fun _ h => by cases h
  · rintro _ ⟨⟩
    exact hp

theorem takeWhile_stop {tail : List Char} (hcs : cs.all p = true)
    (htail : ∀ c ∈ tail.head?, p c = false) : (cs ++ tail).takeWhile p = cs ∧ (cs ++ tail).dropWhile p = tail := by
  have hcs := List.all_eq_true.mp hcs
  rw [List.takeWhile_append_of_pos hcs, List.dropWhile_append_of_pos hcs]
  cases tail with
  | nil => simp
  | cons c tail => simp [htail c rfl]

theorem splitString_quoted (cs tail : List Char) (h : isQuoted cs = true) :
    splitString false (cs ++ tail) = (cs, tail) := by
  fun_induction isQuoted cs with
  | case1 => cases h
  | case2 => rfl
  | case3 c cs ih => simp [splitString, ih h]
  | case4 c cs hquote hescape ih =>
    simp only [Bool.and_eq_true, decide_eq_true_eq, ne_eq] at h
    simp [splitString, h.1, ih h.2]

theorem closesAtEnd_eq (cs : List Char) : Parser.closesAtEnd false cs = isQuoted cs := by
  fun_induction isQuoted cs with
  | case1 => rfl
  | case2 => rfl
  | case3 c cs ih => simp [Parser.closesAtEnd, ih]
  | case4 c cs hquote hescape ih =>
    by_cases hc : c = '"'
    · subst hc
      cases cs with
      | nil => exact absurd rfl (hquote rfl)
      | cons d cs => simp [Parser.closesAtEnd]
    · by_cases he : c = '\\'
      · subst he
        cases cs with
        | nil => rfl
        | cons d cs => exact absurd rfl (hescape d cs rfl)
      · simp [Parser.closesAtEnd, hc, he, ih]

theorem isDigit_cases (h : c.isDigit = true) : ∃ n ∈ List.range' 48 10, c = Char.ofNat n := by
  simp only [Char.isDigit, Bool.and_eq_true, decide_eq_true_eq, ge_iff_le, UInt32.le_iff_toNat_le] at h
  refine ⟨c.toNat, ?_, (Char.ofNat_toNat c).symm⟩
  rw [List.mem_range'_1]
  exact ⟨h.1, Nat.lt_succ_of_le h.2⟩

theorem isBlank_cases (h : isBlank c = true) :
    ∃ n ∈ blankRanges.flatMap fun r => List.range' r.1 (r.2 + 1 - r.1), c = Char.ofNat n := by
  refine ⟨c.toNat, ?_, (Char.ofNat_toNat c).symm⟩
  obtain ⟨r, hr, hc⟩ := List.any_eq_true.mp h
  simp only [Bool.and_eq_true, decide_eq_true_eq] at hc
  refine List.mem_flatMap.mpr ⟨r, hr, List.mem_range'_1.mpr ⟨hc.1, ?_⟩⟩
  omega

theorem isDigit_of_start (h : isIdentifierStart c = true) : c.isDigit = false := by
  rw [Bool.eq_false_iff]
  intro hdigit
  obtain ⟨n, hn, rfl⟩ := isDigit_cases hdigit
  have : ∀ n ∈ List.range' 48 10, isIdentifierStart (Char.ofNat n) = false := by decide +kernel
  rw [this n hn] at h
  cases h

theorem isBlank_eq_false (h : isIdentifierStart c = true ∨ c.isDigit = true) : isBlank c = false := by
  rw [Bool.eq_false_iff]
  intro hblank
  obtain ⟨n, hn, rfl⟩ := isBlank_cases hblank
  have : ∀ n ∈ blankRanges.flatMap fun r => List.range' r.1 (r.2 + 1 - r.1),
      isIdentifierStart (Char.ofNat n) = false ∧ (Char.ofNat n).isDigit = false := by decide +kernel
  rcases h with h | h
  · rw [(this n hn).1] at h
    cases h
  · rw [(this n hn).2] at h
    cases h

def isNumberPart (c : Char) : Bool := c.isDigit || c == '.'

theorem splitNumber_digits {tail : List Char} (hcs : cs.all Char.isDigit = true)
    (htail : ∀ c ∈ tail.head?, isNumberPart c = false) : splitNumber (cs ++ tail) = (cs, tail) := by
  simp only [isNumberPart, Bool.or_eq_false_iff, beq_eq_false_iff_ne] at htail
  obtain ⟨htake, hdrop⟩ := takeWhile_stop hcs fun c hc => (htail c hc).1
  unfold splitNumber
  rw [htake, hdrop]
  split
  next => exact absurd rfl (htail _ rfl).2
  next => rfl

theorem splitNumber_point {d : Char} {ds tail : List Char} (hcs : cs.all Char.isDigit = true)
    (hd : d.isDigit = true) (hds : ds.all Char.isDigit = true) (htail : ∀ c ∈ tail.head?, c.isDigit = false) :
    splitNumber (cs ++ '.' :: d :: (ds ++ tail)) = (cs ++ '.' :: d :: ds, tail) := by
  have hcs := List.all_eq_true.mp hcs
  obtain ⟨htake, hdrop⟩ := takeWhile_stop hds htail
  unfold splitNumber
  rw [List.takeWhile_append_of_pos hcs, List.dropWhile_append_of_pos hcs]
  simp [hd, htake, hdrop]

theorem Lexical.split {kind : TokenKind} {tail : List Char} (h : Lexical kind (c :: cs))
    (htail : Ends tail) : Lexeme.split c (cs ++ tail) = ⟨kind, c :: cs, tail⟩ := by
  generalize hw : c :: cs = w at h
  cases h with
  | word hc hcs =>
    cases hw
    have hquote : c ≠ '"' := by rintro rfl; revert hc; decide +kernel
    have hslash : c ≠ '/' := by rintro rfl; revert hc; decide +kernel
    obtain ⟨htake, hdrop⟩ := takeWhile_stop hcs (htail.head? (by decide +kernel))
    simp [Lexeme.split, hquote, hslash, isDigit_of_start hc, hc, htake, hdrop]
  | digits hc hcs =>
    cases hw
    have hquote : c ≠ '"' := by rintro rfl; revert hc; decide
    have hslash : c ≠ '/' := by rintro rfl; revert hc; decide
    simp [Lexeme.split, hquote, hslash, hc, splitNumber_digits hcs (htail.head? rfl)]
  | point hc hcs hd hds =>
    cases hw
    have hquote : c ≠ '"' := by rintro rfl; revert hc; decide
    have hslash : c ≠ '/' := by rintro rfl; revert hc; decide
    simp [Lexeme.split, hquote, hslash, hc, splitNumber_point hcs hd hds (htail.head? rfl)]
  | quoted h =>
    cases hw
    simp [Lexeme.split, splitString_quoted cs tail h]
  | symbol h =>
    simp only [symbols, List.mem_cons, List.not_mem_nil, or_false] at h
    rcases htail with rfl | ⟨rest, rfl⟩ <;> rcases h with rfl | rfl | rfl | rfl | rfl | rfl | rfl |
      rfl | rfl | rfl | rfl |
      rfl | rfl | rfl | rfl | rfl | rfl | rfl | rfl | rfl | rfl | rfl <;> cases hw <;> rfl

theorem Lexical.exists_cons {kind : TokenKind} (h : Lexical kind cs) :
    ∃ c rest, cs = c :: rest ∧ isBlank c = false := by
  cases h with
  | word hc hcs => exact ⟨_, _, rfl, isBlank_eq_false (.inl hc)⟩
  | digits hc hcs => exact ⟨_, _, rfl, isBlank_eq_false (.inr hc)⟩
  | point hc hcs hd hds => exact ⟨_, _, rfl, isBlank_eq_false (.inr hc)⟩
  | quoted h => exact ⟨_, _, rfl, by decide⟩
  | @symbol w h =>
    have hall : symbols.all (fun w => w.toList.head?.any fun c => !isBlank c) = true := by decide +kernel
    have hhead := List.all_eq_true.mp hall w h
    cases hw : w.toList with
    | nil =>
      rw [hw] at hhead
      cases hhead
    | cons d rest =>
      rw [hw] at hhead
      exact ⟨d, rest, rfl, by simpa using hhead⟩

theorem Lexical.scan {kind : TokenKind} {tail : List Char} (h : Lexical kind w.toList) (htail : Ends tail)
    (start : Nat) :
    Token.scanFrom start (w.toList ++ tail) = ⟨kind, .ofOffsets start (start + byteLength w.toList),
      w⟩ :: Token.scanFrom (start + byteLength w.toList) tail := by
  obtain ⟨c, cs, hw, hblank⟩ := h.exists_cons
  have hofList : String.ofList (c :: cs) = w := by rw [← hw, String.ofList_toList]
  rw [hw] at h ⊢
  rw [List.cons_append, Token.scanFrom, hblank, h.split htail]
  simp [hofList]

theorem Lexical.scan_signed {tail : List Char} (h : Lexical .number w.toList) (htail : Ends tail)
    (start : Nat) : Token.scanFrom start (("-" ++ w).toList ++ tail) =
      ⟨.punct, .ofOffsets start (start + 1), "-"⟩ ::
      ⟨.number, .ofOffsets (start + 1) (start + 1 + byteLength w.toList), w⟩ ::
        Token.scanFrom (start + 1 + byteLength w.toList) tail := by
  have hminus : Lexeme.split '-' (w.toList ++ tail) = ⟨.punct, ['-'], w.toList ++ tail⟩ := by
    obtain ⟨c, cs, hw, -⟩ := h.exists_cons
    rw [hw]
    rfl
  have htext : ("-" ++ w).toList = '-' :: w.toList := by rw [String.toList_append]; rfl
  rw [htext, List.cons_append, Token.scanFrom, if_neg (by decide), hminus]
  exact congrArg (_ :: ·) (h.scan htail (start + 1))

/-! ## The tokens of a print -/

def leadKind : List Char → TokenKind
  | [] => .punct
  | c :: _ =>
    if c = '"' then .string else if c.isDigit then .number else if isIdentifierStart c then .identifier else .punct

def isSigned : List Char → Bool
  | '-' :: _ :: _ => true
  | _ => false

inductive Printed : String → Prop
  | token {kind : TokenKind} {w : String} (h : Lexical kind w.toList) : Printed w
  | signed {w : String} (h : Lexical .number w.toList) : Printed ("-" ++ w)

/-- The tokens are those of the words, and their spans read so. -/
inductive Spells (source : List Char) : List String → List Token → Prop
  | nil : Spells source [] []
  | token {w : String} {ws : List String} {u : Token} {us : List Token} (hsigned : isSigned w.toList = false)
    (hkind : u.kind = leadKind w.toList) (htext : u.text = w) (hnamed : u.IsNamed) (hspan : u.span.text source = w)
    (h : Spells source ws us) : Spells source (w :: ws) (u :: us)
  | signed {w : String} {ws : List String} {m u : Token} {us : List Token} (hsigned : isSigned w.toList = true)
    (hm : m.IsPunct "-") (hkind : u.kind = .number) (htext : "-" ++ u.text = w)
    (hspan : (m.span.join u.span).text source = w) (h : Spells source ws us) : Spells source (w :: ws) (m :: u :: us)

theorem Lexical.leadKind_eq {kind : TokenKind} (h : Lexical kind cs) :
    leadKind cs = kind ∧ isSigned cs = false := by
  cases h with
  | @word c cs hc hcs =>
    have hquote : c ≠ '"' := by rintro rfl; revert hc; decide +kernel
    have hminus : c ≠ '-' := by rintro rfl; revert hc; decide +kernel
    constructor
    · simp [leadKind, hquote, isDigit_of_start hc, hc]
    · cases cs <;> simp [isSigned, hminus]
  | @digits c cs hc _ | @point c _ cs _ hc _ _ _ =>
    have hquote : c ≠ '"' := by rintro rfl; revert hc; decide
    have hminus : c ≠ '-' := by rintro rfl; revert hc; decide
    constructor
    · simp [leadKind, hquote, hc]
    · cases cs <;> simp [isSigned, hminus]
  | @quoted cs h => cases cs <;> exact ⟨rfl, rfl⟩
  | @symbol w h =>
    have : ∀ w ∈ symbols, leadKind w.toList = .punct ∧ isSigned w.toList = false := by decide +kernel
    exact this w h

def trailing (ws : List String) : List Char := ws.flatMap fun w => ' ' :: w.toList

theorem ends_trailing (ws : List String) : Ends (trailing ws) := by
  cases ws with
  | nil => exact .inl rfl
  | cons w ws => exact .inr ⟨w.toList ++ trailing ws, rfl⟩

theorem spaced_cons (w : String) (ws : List String) : spaced (w :: ws) = w.toList ++ trailing ws := by
  induction ws generalizing w with
  | nil => simp [spaced, trailing]
  | cons v ws ih =>
    rw [spaced, ih]
    · rfl
    · simp

theorem spells_word (before : List Char) (hw : Printed w) (hsize : byteLength source < 2 ^ 32)
    (hsource : before ++ (w.toList ++ trailing ws) = source)
    (ih : Spells source ws (Token.scanFrom (byteLength (before ++ w.toList)) (trailing ws))) :
    Spells source (w :: ws) (Token.scanFrom (byteLength before) (w.toList ++ trailing ws)) := by
  rw [byteLength_append] at ih
  have htext :
      (Span.ofOffsets (byteLength before) (byteLength before + byteLength w.toList)).text source = w := by
    rw [Span.text_middle hsource hsize, String.ofList_toList]
  cases hw with
  | token h =>
    obtain ⟨hkind, hsigned⟩ := h.leadKind_eq
    have hnamed := Token.isIdentifierPart_of_mem_scanFrom (byteLength before) (w.toList ++ trailing ws)
    rw [h.scan (ends_trailing ws)] at hnamed ⊢
    exact .token hsigned hkind.symm rfl (hnamed _ (by simp)) htext ih
  | @signed w h =>
    obtain ⟨c, cs, hw, -⟩ := h.exists_cons
    have hlist : ("-" ++ w).toList = '-' :: w.toList := by rw [String.toList_append]; rfl
    have hlen : byteLength ("-" ++ w).toList = 1 + byteLength w.toList := by rw [hlist]; rfl
    have hpos : 0 < byteLength w.toList := by rw [hw]; have := c.utf8Size_pos; simp only [byteLength]; omega
    rw [h.scan_signed (ends_trailing ws)]
    rw [hlen, ← Nat.add_assoc] at htext ih
    refine .signed (by rw [hlist, hw]; rfl) ⟨rfl, rfl⟩ rfl rfl ?_ ih
    have hle : byteLength before + (byteLength ("-" ++ w).toList + byteLength (trailing ws)) = byteLength source := by
      rw [← hsource, byteLength_append, byteLength_append]
    rw [Span.join_ofOffsets (by omega) (Nat.le_refl _) (by omega) (by omega)]
    exact htext

theorem spells_trailing {before : List Char} (hws : ∀ w ∈ ws, Printed w) (hsize : byteLength source < 2 ^ 32)
    (hsource : before ++ trailing ws = source) :
    Spells source ws (Token.scanFrom (byteLength before) (trailing ws)) := by
  induction ws generalizing before with
  | nil =>
    rw [trailing, List.flatMap_nil, Token.scanFrom]
    exact .nil
  | cons w ws ih =>
    have htrailing : trailing (w :: ws) = ' ' :: (w.toList ++ trailing ws) := by simp [trailing]
    rw [htrailing] at hsource ⊢
    have hblank : byteLength before + ' '.utf8Size = byteLength (before ++ [' ']) := by
      rw [byteLength_append]
      rfl
    rw [Token.scanFrom, if_pos (by decide), hblank]
    refine spells_word _ (hws w (by simp)) hsize (by simpa using hsource) (ih (fun v hv => hws v (by simp [hv])) ?_)
    simpa using hsource

theorem spells_scan (hws : ∀ w ∈ ws, Printed w) (hsize : byteLength (spaced ws) < 2 ^ 32) :
    Spells (spaced ws) ws (Token.scan (spaced ws)) := by
  cases ws with
  | nil =>
    rw [spaced, Token.scan, Token.scanFrom]
    exact .nil
  | cons w ws =>
    have hrest : ∀ v ∈ ws, Printed v := fun v hv => hws v (by simp [hv])
    rw [spaced_cons] at hsize ⊢
    exact spells_word [] (hws w (by simp)) hsize rfl (spells_trailing hrest hsize rfl)

theorem leadKind_ne_comment (cs : List Char) : leadKind cs ≠ .comment := by
  cases cs with
  | nil => simp [leadKind]
  | cons c cs =>
    simp only [leadKind]
    repeat' split
    all_goals simp

theorem Spells.kind_ne_comment {us : List Token} (h : Spells source ws us) :
    ∀ u ∈ us, u.kind ≠ .comment := by
  induction h with
  | nil => simp
  | token _ hkind _ _ _ _ ih => simpa [hkind, leadKind_ne_comment] using ih
  | signed _ hm hkind _ _ _ ih => simpa [hm.1, hkind] using ih

theorem Spells.named {us : List Token} (h : Spells source ws us) : Token.Named us := by
  induction h with
  | nil => exact nofun
  | token _ _ _ hnamed _ _ ih => exact Token.named_cons.mpr ⟨hnamed, ih⟩
  | signed _ hm hkind _ _ _ ih =>
    rw [Token.named_cons, Token.named_cons]
    exact ⟨fun h => absurd h (by simp [hm.1]), fun h => absurd h (by simp [hkind]), ih⟩

theorem spells_tokens (hws : ∀ w ∈ ws, Printed w) (hsize : byteLength (spaced ws) < 2 ^ 32) :
    Spells (spaced ws) ws ((Token.scan (spaced ws)).filter (·.kind ≠ .comment)) := by
  have h := spells_scan hws hsize
  rwa [List.filter_eq_self.mpr]
  intro u hu
  simpa using h.kind_ne_comment u hu

/-! ## The words of an outline -/

theorem printed_symbol (h : w ∈ symbols) : Printed w := .token (.symbol h)

theorem lexical_name {text : String} (h : isName text = true) : Lexical .identifier text.toList := by
  unfold isName at h
  split at h
  · cases h
  · next c cs hcs =>
    simp only [Bool.and_eq_true] at h
    rw [hcs]
    exact .word h.1.1 h.1.2

theorem printed_keyword (h : w ∈ Token.keywords) : Printed w := by
  simp only [Token.keywords, List.mem_cons, List.not_mem_nil, or_false] at h
  rcases h with rfl | rfl | rfl | rfl | rfl | rfl | rfl | rfl <;>
    exact .token (.word (by decide +kernel) (by decide +kernel))

theorem lexical_digits (h : areDigits cs = true) : Lexical .number cs := by
  cases cs with
  | nil => cases h
  | cons c cs =>
    simp only [areDigits, List.all_cons, Bool.and_eq_true] at h
    exact .digits h.2.1 h.2.2

theorem lexical_point {whole decimals : List Char} (hwhole : areDigits whole = true)
    (hdecimals : areDigits decimals = true) : Lexical .number (whole ++ '.' :: decimals) := by
  cases whole with
  | nil => cases hwhole
  | cons c cs =>
    cases decimals with
    | nil => cases hdecimals
    | cons d ds =>
      simp only [areDigits, List.all_cons, Bool.and_eq_true] at hwhole hdecimals
      exact .point hwhole.2.1 hwhole.2.2 hdecimals.2.1 hdecimals.2.2

theorem printed_number {sign : List Char} (hsign : sign = [] ∨ sign = ['-']) (h : Lexical .number cs) :
    Printed (.ofList (sign ++ cs)) := by
  rcases hsign with rfl | rfl
  · exact .token (by simpa using h)
  · have : String.ofList (['-'] ++ cs) = "-" ++ .ofList cs := by rw [String.ofList_append]
    rw [this]
    exact .signed (by simpa using h)

theorem printed_sequence (h : ∀ o ∈ os, ∀ w ∈ o.words, Printed w) : ∀ w ∈ sequence os, Printed w := by
  induction os with
  | nil => simp [sequence]
  | cons o os ih =>
    have hend : Printed ";" := printed_symbol (by decide)
    have hrest := ih fun x hx => h x (by simp [hx])
    simpa [sequence, or_imp, forall_and, hend] using ⟨h o (by simp), hrest⟩

theorem declarations_concat (ds : List Outline) (body : Outline) :
    declarations (ds ++ [body]) = sequence ds ++ rightBrace :: "in" :: body.words := by
  induction ds with
  | nil => rfl
  | cons d ds ih =>
    obtain ⟨x, xs, hx⟩ : ∃ x xs, ds ++ [body] = x :: xs := List.exists_cons_of_ne_nil (by simp)
    rw [List.cons_append, hx, declarations, ← hx, ih, sequence, List.append_assoc]
    · rfl
    · simp

theorem printed_commas (h : ∀ o ∈ os, ∀ w ∈ o.words, Printed w) : ∀ w ∈ commas os, Printed w := by
  induction os with
  | nil => simp [commas]
  | cons o os ih =>
    have hcomma : Printed "," := printed_symbol (by decide)
    have hrest := ih fun x hx => h x (by simp [hx])
    simpa [commas, or_imp, forall_and, hcomma] using ⟨h o (by simp), hrest⟩

theorem printed_list (h : ∀ o ∈ os, ∀ w ∈ o.words, Printed w) : ∀ w ∈ list os, Printed w := by
  cases os with
  | nil => simp [list]
  | cons o os =>
    have hrest : ∀ w ∈ commas os, Printed w := printed_commas fun x hx => h x (by simp [hx])
    simpa [list, or_imp, forall_and] using ⟨h o (by simp), hrest⟩

theorem printed_operand {kind : Tree.Kind} (h : ∀ w ∈ ws, Printed w) :
    ∀ w ∈ operand kind ws, Printed w := by
  have hleft : Printed "(" := printed_symbol (by decide)
  have hright : Printed ")" := printed_symbol (by decide)
  unfold operand
  split
  · simpa [or_imp, forall_and, hleft, hright] using h
  · exact h

end

theorem WellFormed.printed {form : Form} {o : Outline} (h : WellFormed form o) : ∀ w ∈ o.words, Printed w := by
  have hsymbol : ∀ w ∈ symbols, Printed w := fun w hw => printed_symbol hw
  have hkeyword : ∀ w ∈ Token.keywords, Printed w := fun w hw => printed_keyword hw
  simp only [symbols, Token.keywords, List.mem_cons, List.not_mem_nil, or_false, forall_eq_or_imp, forall_eq]
    at hsymbol hkeyword
  induction h with
  | name h => simpa [words, leaf] using Printed.token (lexical_name h)
  | integer hsign h => simpa [words, leaf] using printed_number hsign (lexical_digits h)
  | float hsign hwhole hdecimals => simpa [words, leaf] using printed_number hsign (lexical_point hwhole hdecimals)
  | string h =>
    intro w hw
    cases List.mem_singleton.mp hw
    exact .token (by simpa using Lexical.quoted h)
  | parameters h ih => simpa [words, branch, or_imp, forall_and, hsymbol] using printed_list ih
  | arguments h ih => simpa [words, branch, or_imp, forall_and, hsymbol] using printed_list ih
  | listLiteral h ih => simpa [words, branch, or_imp, forall_and, hsymbol] using printed_list ih
  | @arithmetic left right op hleft hop hright ihleft ihright =>
    have hprinted : Printed op := printed_symbol (by revert op; decide)
    simpa [words, branch, leaf, or_imp, forall_and, hprinted] using ⟨printed_operand ihleft, printed_operand ihright⟩
  | @comparison left right op hleft hop hright ihleft ihright =>
    have hprinted : Printed op := printed_symbol (by revert op; decide)
    simpa [words, branch, leaf, or_imp, forall_and, hprinted] using ⟨printed_operand ihleft, printed_operand ihright⟩
  | letIn hdecls hbody ihdecls ihbody =>
    have hds := printed_sequence ihdecls
    simp_all [words, branch, declarations_concat, or_imp]
  | block h ih => simpa [words, branch, or_imp, forall_and, hsymbol] using printed_sequence ih
  | program h ih => simpa [words, branch] using printed_sequence ih
  | ifThen hkind | ifElse hkind | ifElseIf hkind =>
    rcases hkind with rfl | rfl <;> simp_all [words, branch, otherwise, or_imp]
  | _ => simp_all [words, branch, or_imp]

end Outline
end Bies
