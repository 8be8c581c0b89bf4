import Bies.Proofs.LoadingRuns
import Mathlib.Data.List.Forall2

/-!
# The bodies of functions in the table

If no two functions of a program have the same name, then loading its statements leaves every function of the
table with the statements of its own body, and adds the functions one behind the other in the order in which the
program declares them. `Filled` says this of a part of the program: the function it stands in gets entries, and
new functions come last.
-/

namespace Bies

open Loading

/-! ## Functions of a program -/

structure Declared where
  name : Option String
  params : List String
  body : Body

def Declared.names (ds : List Declared) : List String := ds.filterMap (·.name)

@[simp] theorem Declared.names_append (ds es : List Declared) : names (ds ++ es) = names ds ++ names es :=
  List.filterMap_append

mutual

def Expr.functions : Expr → List Declared
  | .arithmetic _ left _ right | .comparison _ left _ right => left.functions ++ right.functions
  | .call _ _ args => Expr.functionsAll args
  | .access _ _ index => index.functions
  | .list _ items => Expr.functionsAll items
  | .lambda _ params body => ⟨none, params, body⟩ :: body.functions
  | .int .. | .float .. | .str .. | .ident .. | .malformed .. => []

def Expr.functionsAll : List Expr → List Declared
  | [] => []
  | e :: rest => e.functions ++ Expr.functionsAll rest

def Body.functions : Body → List Declared
  | .block _ statements => Stmt.functionsAll statements
  | .value _ value => value.functions

def Stmt.functions : Stmt → List Declared
  | .decl _ _ _ value | .ret _ value | .expr value => value.functions
  | .lambdaDecl _ name _ params body | .funDecl _ name params body => ⟨some name, params, body⟩ :: body.functions
  | .letIn _ decls _ body => Stmt.functionsAll decls ++ Stmt.functionsAll body
  | .ifThen _ test _ body => test.functions ++ Stmt.functionsAll body
  | .ifElse _ test _ body _ other => test.functions ++ (Stmt.functionsAll body ++ Stmt.functionsAll other)
  | .ifElseIf _ test _ body link => test.functions ++ (Stmt.functionsAll body ++ link.functions)
  | .block _ statements => Stmt.functionsAll statements
  | .print _ args => Expr.functionsAll args
  | .malformed .. => []

def Stmt.functionsAll : List Stmt → List Declared
  | [] => []
  | stmt :: rest => stmt.functions ++ Stmt.functionsAll rest

end

/-! ## Nodes of a program -/

section
variable (all : List String)

mutual

/-- The node is made of the expression, where `all` are the names of the functions by number. -/
def Expr.Becomes : Expr → Node → Prop
  | .int span k, n => ∃ id, n = .int ⟨id, span⟩ k
  | .float span x, n => ∃ id, n = .float ⟨id, span⟩ x
  | .str span text, n => ∃ id, n = .str ⟨id, span⟩ text
  | .ident span name, n => ∃ id, n = .ident ⟨id, span⟩ name
  | .arithmetic span left op right, n => ∃ id l r, left.Becomes l ∧ right.Becomes r ∧
    (n = .binary ⟨id, span⟩ l op r ∨ ∃ k, n = .ofNumber ⟨id, span⟩ k)
  | .comparison span left op right, n =>
    ∃ id l r, left.Becomes l ∧ right.Becomes r ∧ n = .comparison ⟨id, span⟩ l op r
  | .call span name args, n => ∃ id ns, Expr.AllBecome args ns ∧ n = .call ⟨id, span⟩ name ns
  | .access span name index, n => ∃ id i, index.Becomes i ∧ n = .access ⟨id, span⟩ name i
  | .list span items, n => ∃ id ns, Expr.AllBecome items ns ∧ n = .list ⟨id, span⟩ ns
  | .lambda span params body, n => ∃ id b f, body.Becomes b ∧ all[f]? = some s!"lambda#{id}" ∧
    n = .lambda ⟨id, span⟩ params b f
  | .malformed .., _ => False

def Expr.AllBecome : List Expr → List Node → Prop
  | [], ns => ns = []
  | e :: rest, ns => ∃ n ns', e.Becomes n ∧ Expr.AllBecome rest ns' ∧ ns = n :: ns'

def Body.Becomes : Body → Node → Prop
  | .block span statements, n => ∃ id ns, Stmt.AllBecome statements ns ∧ n = .block ⟨id, span⟩ ns
  | .value span value, n => ∃ id v, value.Becomes v ∧ n = .ret ⟨id, span⟩ v

def Stmt.Becomes : Stmt → Node → Prop
  | .decl span constant name value, n => ∃ id v, value.Becomes v ∧ n = .decl ⟨id, span⟩ constant name v
  | .lambdaDecl span name _ params body, n | .funDecl span name params body, n =>
    ∃ id b f, body.Becomes b ∧ all[f]? = some name ∧ n = .funDecl ⟨id, span⟩ name params f
  | .letIn span decls bodySpan body, n => ∃ id k ds ss, Stmt.AllBecome decls ds ∧ Stmt.AllBecome body ss ∧
    n = .letIn ⟨id, span⟩ ds (.block ⟨k, bodySpan⟩ ss)
  | .ifThen span test bodySpan body, n => ∃ id k t ss, test.Becomes t ∧ Stmt.AllBecome body ss ∧
    n = .ifThen ⟨id, span⟩ t (.block ⟨k, bodySpan⟩ ss)
  | .ifElse span test bodySpan body otherSpan other, n =>
    ∃ id k j t ss os, test.Becomes t ∧ Stmt.AllBecome body ss ∧
    Stmt.AllBecome other os ∧ n = .ifElse ⟨id, span⟩ t (.block ⟨k, bodySpan⟩ ss) (.block ⟨j, otherSpan⟩ os)
  | .ifElseIf span test bodySpan body link, n => ∃ id k t ss l, test.Becomes t ∧ Stmt.AllBecome body ss ∧
    link.Becomes l ∧ n = .ifElseIf ⟨id, span⟩ t (.block ⟨k, bodySpan⟩ ss) l
  | .block span statements, n => ∃ id ss, Stmt.AllBecome statements ss ∧ n = .block ⟨id, span⟩ ss
  | .ret span value, n => ∃ id v, value.Becomes v ∧ n = .ret ⟨id, span⟩ v
  | .print span args, n => ∃ id ns, Expr.AllBecome args ns ∧ n = .print ⟨id, span⟩ ns
  | .expr value, n => value.Becomes n
  | .malformed .., _ => False

def Stmt.AllBecome : List Stmt → List Node → Prop
  | [], ns => ns = []
  | stmt :: rest, ns => ∃ n ns', stmt.Becomes n ∧ Stmt.AllBecome rest ns' ∧ ns = n :: ns'

end

/-- The sequence of a function with the body. -/
def Body.LaidOut : Body → List Node → Prop
  | .block _ statements, sequence => ∃ ns, Stmt.AllBecome all statements ns ∧ sequence = Node.entries ns
  | .value span e, sequence => ∃ id v, e.Becomes all v ∧ sequence = [.ret ⟨id, span⟩ v]

structure Declared.Recorded (d : Declared) (r : FunctionRecord) : Prop where
  name : d.name = some r.name ∨ (d.name = none ∧ ∃ id : NodeId, r.name = s!"lambda#{id}")
  params : r.params = d.params
  sequence : d.body.LaidOut all r.sequence

end

theorem Expr.nested_of_becomes {all : List String} {e : Expr} {n : Node} (h : e.Becomes all n) :
    n.nested = [] ∧ n.isDecl = false := by
  cases e <;> simp only [Expr.Becomes] at h
  case arithmetic =>
    obtain ⟨id, l, r, _, _, rfl | ⟨k, rfl⟩⟩ := h
    · exact ⟨rfl, rfl⟩
    · cases k <;> exact ⟨rfl, rfl⟩
  case comparison =>
    obtain ⟨id, l, r, _, _, rfl⟩ := h
    exact ⟨rfl, rfl⟩
  case call | list | access =>
    obtain ⟨id, l, _, rfl⟩ := h
    exact ⟨rfl, rfl⟩
  case lambda =>
    obtain ⟨id, b, f, _, _, rfl⟩ := h
    exact ⟨rfl, rfl⟩
  all_goals
    obtain ⟨id, rfl⟩ := h
    exact ⟨rfl, rfl⟩

def Node.statements : Node → List Node
  | .block _ nodes => nodes
  | n => [n]

namespace Loading

/-! ## Pieces of a program -/

def Piece.functions : Piece → List Declared
  | .expr e => e.functions
  | .stmt s | .inner s | .entry s => s.functions
  | .frame _ statements => Stmt.functionsAll statements

def Piece.Becomes (all : List String) : Piece → Node → Prop
  | .expr e => e.Becomes all
  | .stmt s | .inner s | .entry s => s.Becomes all
  | .frame span statements => (Body.block span statements).Becomes all

def Piece.entries : Piece → Node → List Node
  | .expr _, _ => []
  | .stmt _, n => n.nested
  | .inner _, n => n.nested ++ if n.isDecl then [n] else []
  | .entry _, n => n.nested ++ [n]
  | .frame .., n => Node.entries n.statements

def Piece.entriesAll (ps : List Piece) (ns : List Node) : List Node := (List.zipWith Piece.entries ps ns).flatten

section
variable {all : List String} {id : NodeId} {p : Piece} {ps : List Piece} {ns : List Node} {n : Node} {body : Body}

theorem functionsAll_expr (es : List Expr) : Expr.functionsAll es = es.flatMap Expr.functions := by
  induction es with
  | nil => rfl
  | cons e rest ih => simp [Expr.functionsAll, ih]

theorem functionsAll_stmt (statements : List Stmt) :
    Stmt.functionsAll statements = statements.flatMap Stmt.functions := by
  induction statements with
  | nil => rfl
  | cons s rest ih => simp [Stmt.functionsAll, ih]

theorem Builds.functions (h : Builds id p ps ns n) : p.functions = ps.flatMap Piece.functions := by
  cases h <;> simp [Piece.functions, Expr.functions, Stmt.functions, functionsAll_expr,
    functionsAll_stmt, List.flatMap_map]

theorem allBecome_exprs {es : List Expr} (h : List.Forall₂ (Piece.Becomes all) (es.map .expr) ns) :
    Expr.AllBecome all es ns := by
  induction es generalizing ns with
  | nil =>
    cases h
    rfl
  | cons e rest ih =>
    cases h with
    | cons hn hns => exact ⟨_, _, hn, ih hns, rfl⟩

theorem allBecome_stmts {piece : Stmt → Piece} {statements : List Stmt}
    (h : List.Forall₂ (Piece.Becomes all) (statements.map piece) ns)
    (hp : ∀ s n, (piece s).Becomes all n → s.Becomes all n) : Stmt.AllBecome all statements ns := by
  induction statements generalizing ns with
  | nil =>
    cases h
    rfl
  | cons s rest ih =>
    cases h with
    | cons hn hns => exact ⟨_, _, hp _ _ hn, ih hns, rfl⟩

theorem forall₂_concat {α β : Type} {R : α → β → Prop} {as : List α} {bs : List β} {a : α} {b : β} :
    List.Forall₂ R (as ++ [a]) (bs ++ [b]) ↔ List.Forall₂ R as bs ∧ R a b := by
  rw [← List.forall₂_reverse_iff, ← @List.forall₂_reverse_iff _ _ R as bs]
  simp [and_comm]

theorem Builds.becomes (h : Builds id p ps ns n) (hns : List.Forall₂ (Piece.Becomes all) ps ns) : p.Becomes all n := by
  cases h with
  | int | float | str | ident => exact ⟨id, rfl⟩
  | known k =>
    simp only [List.forall₂_cons] at hns
    exact ⟨id, _, _, hns.1, hns.2.1, .inr ⟨k, rfl⟩⟩
  | arithmetic =>
    simp only [List.forall₂_cons] at hns
    exact ⟨id, _, _, hns.1, hns.2.1, .inl rfl⟩
  | comparison =>
    simp only [List.forall₂_cons] at hns
    exact ⟨id, _, _, hns.1, hns.2.1, rfl⟩
  | call | list | print => exact ⟨id, _, allBecome_exprs hns, rfl⟩
  | access | decl | ret => exact ⟨id, _, (List.forall₂_cons.mp hns).1, rfl⟩
  | letIn =>
    obtain ⟨hdecls, k, ss, hss, rfl⟩ := forall₂_concat.mp hns
    exact ⟨id, k, _, ss, allBecome_stmts hdecls fun _ _ h => h, hss, rfl⟩
  | ifThen =>
    simp only [List.forall₂_cons] at hns
    obtain ⟨ht, ⟨k, ss, hss, rfl⟩, -⟩ := hns
    exact ⟨id, k, _, ss, ht, hss, rfl⟩
  | ifElse =>
    simp only [List.forall₂_cons] at hns
    obtain ⟨ht, ⟨k, ss, hss, rfl⟩, ⟨j, os, hos, rfl⟩, -⟩ := hns
    exact ⟨id, k, j, _, ss, os, ht, hss, hos, rfl⟩
  | ifElseIf =>
    simp only [List.forall₂_cons] at hns
    obtain ⟨ht, ⟨k, ss, hss, rfl⟩, hl, -⟩ := hns
    exact ⟨id, k, _, ss, _, ht, hss, hl, rfl⟩
  | block | frame => exact ⟨id, _, allBecome_stmts hns fun _ _ h => h, rfl⟩

theorem functions_piece : body.piece.functions = body.functions := by
  cases body <;> rfl

theorem becomes_piece {b : Node} : body.piece.Becomes all b ↔ body.Becomes all b := by
  cases body <;> exact Iff.rfl

theorem laidOut_of_becomes {b : Node} (h : body.Becomes all b) : body.LaidOut all (body.piece.entries b) := by
  cases body with
  | block =>
    obtain ⟨id, ns, hns, rfl⟩ := h
    exact ⟨ns, hns, rfl⟩
  | value =>
    obtain ⟨id, v, hv, rfl⟩ := h
    exact ⟨id, v, hv, rfl⟩

@[simp] theorem entriesAll_singleton : Piece.entriesAll [p] [n] = p.entries n := List.append_nil _

theorem entriesAll_map {α : Type} {xs : List α} {piece : α → Piece} (hlen : (xs.map piece).length = ns.length)
    {entries : Node → List Node} (hp : ∀ x n, (piece x).entries n = entries n) :
    Piece.entriesAll (xs.map piece) ns = ns.flatMap entries := by
  rw [List.length_map] at hlen
  induction xs generalizing ns with
  | nil =>
    obtain rfl := List.length_eq_zero_iff.mp hlen.symm
    rfl
  | cons x rest ih =>
    cases ns with
    | nil => cases hlen
    | cons n ns =>
      rw [List.flatMap_cons, ← hp x n, ← ih (Nat.succ.inj hlen)]
      rfl

theorem entriesAll_inner {statements : List Stmt} (hlen : (statements.map Piece.inner).length = ns.length) :
    Piece.entriesAll (statements.map .inner) ns = Node.nestedAll ns := by
  refine (entriesAll_map hlen fun _ _ => rfl).trans ?_
  clear hlen
  induction ns with
  | nil => rfl
  | cons n rest ih => exact congrArg ((n.nested ++ if n.isDecl then [n] else []) ++ ·) ih

theorem Builds.entries (h : Builds id p ps ns n) (hlen : ps.length = ns.length) :
    p.entries n = Piece.entriesAll ps ns := by
  cases h with
  | call | list | print =>
    exact ((entriesAll_map hlen fun _ _ => rfl).trans (List.flatMap_eq_nil_iff.mpr fun _ _ => rfl)).symm
  | @letIn _ _ decls _ ns b =>
    have hlen' : (decls.map Piece.inner).length = ns.length := by simpa using hlen
    have hdecls := entriesAll_inner hlen'
    unfold Piece.entriesAll at hdecls ⊢
    rw [List.zipWith_append hlen', List.flatten_append, hdecls]
    simp [Piece.entries, Node.nested]
  | ifThen | ifElse | ifElseIf => simp [Piece.entriesAll, Piece.entries, Node.nested]
  | block => exact (entriesAll_inner hlen).symm
  | frame => exact (entriesAll_map hlen fun _ _ => rfl).symm
  | _ => rfl

end

/-! ## Runs of the loader -/

theorem Loaded.becomes {all : List String} {f : FunctionId} {ps : List Piece} {s s' : Ledger} {ns : List Node}
    (h : Loaded f ps s ns s') (ht : s.table.Numbered) (hall : s'.table.names <+: all) :
    List.Forall₂ (Piece.Becomes all) ps ns := by
  induction h with
  | nil => exact .nil
  | cons hn hns ih ihs =>
    exact .cons (List.forall₂_cons.mp (ih ht (hns.grows.1.names.trans hall))).1 (ihs (hn.grows.1.numbered ht) hall)
  | build hb _ ih => exact .cons (hb.becomes (ih ht hall)) .nil
  | expr _ ih | inner _ _ ih =>
    have hn := (List.forall₂_cons.mp (ih ht hall)).1
    exact .cons hn .nil
  | @declared f _ _ _ n _ _ ih | @entry f _ _ _ n _ ih =>
    have hn := (List.forall₂_cons.mp (ih ht (FunctionTable.names_append.symm ▸ hall))).1
    exact .cons hn .nil
  | lambda hg hb ih =>
    have hbody := becomes_piece.mp (List.forall₂_cons.mp (ih ht.declare hall)).1
    have hname := getElem?_mono (hb.grows.1.names.trans hall) (FunctionTable.name_declare ht.id_eq)
    exact .cons ⟨_, _, _, hbody, hg ▸ hname, rfl⟩ .nil
  | lambdaDecl _ hg hb ih =>
    have hbody := becomes_piece.mp (List.forall₂_cons.mp (ih ht.declare.clear hall)).1
    have hnames := hb.grows.1.names.trans hall
    rw [Ledger.clear, FunctionTable.names_clear] at hnames
    have hname := getElem?_mono hnames (FunctionTable.name_declare ht.id_eq)
    exact .cons ⟨_, _, _, hbody, hg ▸ hname, rfl⟩ .nil
  | funDecl _ hg hb ih =>
    have hbody := becomes_piece.mp (List.forall₂_cons.mp (ih ht.declare hall)).1
    have hname := getElem?_mono (hb.grows.1.names.trans hall) (FunctionTable.name_declare ht.id_eq)
    exact .cons ⟨_, _, _, hbody, hg ▸ hname, rfl⟩ .nil

/-- The function `f` is there, and those with the names are still to come; that `main` is none of them, loading
sees to. -/
structure Opens (s : Ledger) (f : FunctionId) (names : List String) : Prop where
  function : f < s.table.size
  numbered : s.table.Numbered
  named : ∀ name ∈ s.table.names, Named s.nextId name
  apart : ∀ name ∈ names, name ∈ s.table.names → name = mainName
  nodup : names.Nodup
  plain : ∀ name ∈ names, '#' ∉ name.toList

structure Filled (s : Ledger) (f : FunctionId) (names : List String) (entries : List Node) (new : List FunctionRecord)
    (s' : Ledger) : Prop where
  table : s'.table = s.table.extend f entries new
  names : ∀ r ∈ new, r.name ∈ names ∨ ∃ k < s'.nextId, r.name = s!"lambda#{k}"

section
variable {s s₁ s₂ : Ledger} {f : FunctionId} {names more : List String} {entries entries' : List Node}
  {new new' : List FunctionRecord} {name : String} {params : List String}

theorem Opens.left (h : Opens s f (names ++ more)) : Opens s f names :=
  ⟨h.function, h.numbered, h.named, fun name hn => h.apart name (List.mem_append_left _ hn), h.nodup.of_append_left,
    fun name hn => h.plain name (List.mem_append_left _ hn)⟩

theorem Opens.tail (h : Opens s f (name :: names)) : Opens s f names :=
  ⟨h.function, h.numbered, h.named, fun n hn => h.apart n (List.mem_cons_of_mem _ hn), h.nodup.of_cons,
    fun n hn => h.plain n (List.mem_cons_of_mem _ hn)⟩

theorem Opens.number (h : Opens s f names) : Opens s.number f names :=
  ⟨h.function, h.numbered, fun n hn => (h.named n hn).mono (Nat.le_succ _), h.apart, h.nodup, h.plain⟩

theorem Opens.right (h : Opens s f (names ++ more)) (hs : s.Grows s₁) (hf : Filled s f names entries new s₁) :
    Opens s₁ f more := by
  have hnames : s₁.table.names = s.table.names ++ new.map (·.name) := by rw [hf.table, FunctionTable.names_extend]
  have hnodup := List.nodup_append.mp h.nodup
  refine ⟨Nat.lt_of_lt_of_le h.function hs.size, hs.numbered h.numbered, fun name hm => ?_,
    fun name hm hmem => ?_, hnodup.2.1,
    fun name hm => h.plain name (List.mem_append_right _ hm)⟩
  · rw [hnames] at hm
    rcases List.mem_append.mp hm with hm | hm
    · exact (h.named name hm).mono hs.nextId
    · obtain ⟨r, hr, rfl⟩ := List.mem_map.mp hm
      exact (hf.names r hr).imp_left fun hname => h.plain _ (List.mem_append_left _ hname)
  · rw [hnames] at hmem
    rcases List.mem_append.mp hmem with hmem | hmem
    · exact h.apart name (List.mem_append_right _ hm) hmem
    · obtain ⟨r, hr, rfl⟩ := List.mem_map.mp hmem
      rcases hf.names r hr with hname | ⟨k, _, hname⟩
      · exact absurd rfl (hnodup.2.2 r.name hname r.name hm)
      · have hplain := h.plain r.name (List.mem_append_right _ hm)
        rw [hname] at hplain
        exact absurd (hash_mem_lambdaName k) hplain

theorem Filled.trans (h : Filled s f names entries new s₁) (h' : Filled s₁ f more entries' new' s₂)
    (hf : f < s.table.size) (hs : s₁.Grows s₂) :
    Filled s f (names ++ more) (entries ++ entries') (new ++ new') s₂ := by
  refine ⟨by rw [h'.table, h.table, FunctionTable.extend_extend hf], fun r hr => ?_⟩
  rcases List.mem_append.mp hr with hr | hr
  · rcases h.names r hr with hname | ⟨k, hk, hname⟩
    · exact .inl (List.mem_append_left _ hname)
    · exact .inr ⟨k, Nat.lt_of_lt_of_le hk hs.nextId, hname⟩
  · exact (h'.names r hr).imp_left (List.mem_append_right _)

theorem Filled.next (h : Filled s f names entries new s₁) (ht : s₂.table = s₁.table)
    (hn : s₁.nextId ≤ s₂.nextId) : Filled s f names entries new s₂ :=
  ⟨ht.trans h.table, fun r hr => (h.names r hr).imp_right fun ⟨k, hk, hname⟩ => ⟨k,
    Nat.lt_of_lt_of_le hk hn, hname⟩⟩

theorem Filled.append {n : Node} (h : Filled s f names entries new s₁) (hf : f < s.table.size) :
    Filled s f names (entries ++ [n]) new (s₁.append f n) := by
  refine ⟨?_, h.names⟩
  rw [Ledger.append, h.table, FunctionTable.append_eq_extend, FunctionTable.extend_extend hf, List.append_nil]

theorem Opens.declare (h : Opens s f names) (hname : Named s.nextId name) (hnew : name ∉ names)
    (hnotMem : name ∉ s.table.names) (params : List String) :
    Opens (s.declare name params f) s.table.size names := by
  have hnames : (s.declare name params f).table.names = s.table.names ++ [name] :=
    FunctionTable.names_declare_of_notMem hnotMem
  refine ⟨?_, h.numbered.declare, fun other hm => ?_, fun other hm hmem => ?_, h.nodup, h.plain⟩
  · rw [Ledger.declare, FunctionTable.declare_new hnotMem, FunctionTable.size_extend]
    exact Nat.lt_succ_self _
  · rw [hnames] at hm
    rcases List.mem_append.mp hm with hm | hm
    · exact h.named other hm
    · exact List.mem_singleton.mp hm ▸ hname
  · rw [hnames] at hmem
    rcases List.mem_append.mp hmem with hmem | hmem
    · exact h.apart other hm hmem
    · exact absurd (List.mem_singleton.mp hmem ▸ hm) hnew

end

/-- What loading does in a function that is open for the names: it gets entries, and the functions that are
declared come last. -/
def Fills (f : FunctionId) (ps : List Piece) (s : Ledger) (ns : List Node) (s' : Ledger) : Prop :=
  Opens s f (Declared.names (ps.flatMap Piece.functions)) → ∃ new,
    Filled s f (Declared.names (ps.flatMap Piece.functions)) (Piece.entriesAll ps ns) new s' ∧
      ∀ all, s'.table.names <+: all → List.Forall₂ (Declared.Recorded all) (ps.flatMap Piece.functions) new

theorem Fills.within {s s₁ : Ledger} {f : FunctionId} {name : String} {d : Declared} {b : Node}
    (hfills : Fills s.table.size [d.body.piece] (s.declare name d.params f) [b] s₁)
    (ho : Opens s f (Declared.names d.body.functions)) (hname : Named s.nextId name)
    (hnew : name ∉ Declared.names d.body.functions) (hnotMem : name ∉ s.table.names)
    (hb : Loaded s.table.size [d.body.piece] (s.declare name d.params f) [b] s₁)
    (hd : d.name = some name ∨ (d.name = none ∧ ∃ k < s₁.nextId, name = s!"lambda#{k}")) :
    ∃ new, Filled s f (Declared.names (d :: d.body.functions)) [] new s₁ ∧
      ∀ all, s₁.table.names <+: all → List.Forall₂ (Declared.Recorded all) (d :: d.body.functions) new := by
  unfold Fills at hfills
  rw [List.flatMap_singleton, functions_piece, entriesAll_singleton] at hfills
  obtain ⟨new, hf, hrecorded⟩ := hfills (ho.declare hname hnew hnotMem d.params)
  refine ⟨⟨s.table.size, name, d.params, some f, d.body.piece.entries b⟩ :: new,
    ⟨?_, List.forall_mem_cons.mpr ⟨?_, fun r hr => ?_⟩⟩, fun all hall => ?_⟩
  · rw [hf.table, Ledger.declare, FunctionTable.declare_new hnotMem, FunctionTable.extend_last]
    rfl
  · rcases hd with hd | ⟨-, hd⟩
    · exact .inl (List.mem_filterMap.mpr ⟨d, List.mem_cons_self, hd⟩)
    · exact .inr hd
  · refine (hf.names r hr).imp_left fun hr => ?_
    obtain ⟨e, he, hname⟩ := List.mem_filterMap.mp hr
    exact List.mem_filterMap.mpr ⟨e, List.mem_cons_of_mem _ he, hname⟩
  · have hbody := becomes_piece.mp (List.forall₂_cons.mp (hb.becomes ho.numbered.declare hall)).1
    exact .cons ⟨hd.imp_right fun ⟨hnone, k, _, hk⟩ => ⟨hnone, k, hk⟩, rfl, laidOut_of_becomes hbody⟩
      (hrecorded all hall)

theorem Loaded.fills {f : FunctionId} {ps : List Piece} {s s' : Ledger} {ns : List Node} (h : Loaded f ps s ns s') :
    Fills f ps s ns s' := by
  induction h with
  | nil => exact fun _ => ⟨[], ⟨FunctionTable.extend_nil.symm, by simp⟩, fun _ _ => .nil⟩
  | cons hn hns ih ihs =>
    intro ho
    unfold Fills at ih
    simp only [List.flatMap_cons, List.flatMap_nil, List.append_nil, Declared.names_append,
      entriesAll_singleton] at ih ho ⊢
    obtain ⟨new, hf, hnew⟩ := ih ho.left
    obtain ⟨more, hf', hmore⟩ := ihs (ho.right hn.grows.1 hf)
    refine ⟨new ++ more, hf.trans hf' ho.function hns.grows.1, fun all hall => ?_⟩
    exact List.rel_append (hnew all (hns.grows.1.names.trans hall)) (hmore all hall)
  | build hb hns ih =>
    intro ho
    simp only [List.flatMap_singleton, hb.functions, entriesAll_singleton] at ho ⊢
    rw [hb.entries (hns.becomes ho.numbered List.prefix_rfl).length_eq]
    obtain ⟨new, hf, hnew⟩ := ih ho
    exact ⟨new, hf.next rfl (Nat.le_succ _), hnew⟩
  | expr hn ih =>
    intro ho
    obtain ⟨new, hf, hnew⟩ := ih ho
    have hn := (Expr.nested_of_becomes (List.forall₂_cons.mp (hn.becomes ho.numbered List.prefix_rfl)).1).1
    rw [entriesAll_singleton, Piece.entries, hn]
    exact ⟨new, hf, hnew⟩
  | inner hd _ ih =>
    intro ho
    obtain ⟨new, hf, hnew⟩ := ih ho
    rw [entriesAll_singleton, Piece.entries, hd, if_neg Bool.false_ne_true]
    exact ⟨new, hf, hnew⟩
  | declared hd _ ih =>
    intro ho
    obtain ⟨new, hf, hnew⟩ := ih ho
    rw [entriesAll_singleton] at hf ⊢
    rw [Piece.entries, hd, if_pos rfl]
    exact ⟨new, hf.append ho.function, fun all hall => hnew all (FunctionTable.names_append.symm ▸ hall)⟩
  | entry _ ih =>
    intro ho
    obtain ⟨new, hf, hnew⟩ := ih ho
    rw [entriesAll_singleton] at hf ⊢
    exact ⟨new, hf.append ho.function, fun all hall => hnew all (FunctionTable.names_append.symm ▸ hall)⟩
  | @lambda f g _ params body s s₁ _ hg hb ih =>
    intro ho
    rw [List.flatMap_singleton] at ho ⊢
    have hnotMem : s!"lambda#{s.nextId}" ∉ s.table.names := fun hmem => (ho.named _ hmem).ne_lambdaName rfl
    obtain rfl : g = s.table.size := hg.trans (congrArg Prod.fst (FunctionTable.declare_new hnotMem params))
    obtain ⟨new, hf, hnew⟩ :=
      Fills.within (d := ⟨none, params, body⟩) ih ho.number (.inr ⟨s.nextId, Nat.lt_succ_self _, rfl⟩)
      (fun hmem => ho.plain _ hmem (hash_mem_lambdaName _)) hnotMem hb (.inr ⟨rfl, s.nextId, hb.grows.1.nextId, rfl⟩)
    exact ⟨new, ⟨hf.table, hf.names⟩, hnew⟩
  | @lambdaDecl f g _ _ name params body s s₁ b hname hg hb ih =>
    intro ho
    rw [List.flatMap_singleton] at ho ⊢
    have hnotMem : name ∉ s.table.names := fun hmem => hname (ho.apart name List.mem_cons_self hmem)
    have hdeclare := FunctionTable.declare_new (f := f) hnotMem params
    obtain rfl : g = s.table.size := hg.trans (congrArg Prod.fst hdeclare)
    -- a function that has just been declared is empty, so it makes no difference that it is cleared
    have hclear : (s.number.declare name params f).clear s.table.size = s.number.declare name params f := by
      have hcleared := FunctionTable.clear_last (t := s.table) (f := f)
        (r := ⟨s.table.size, name, params, some f, []⟩) rfl
      simp only [Ledger.clear, Ledger.declare, Ledger.number, hdeclare, hcleared]
    rw [hclear] at hb ih
    obtain ⟨new, hf, hnew⟩ := Fills.within (d := ⟨some name, params, body⟩) ih ho.tail.number
      (.inl (ho.plain name List.mem_cons_self)) (List.nodup_cons.mp ho.nodup).1 hnotMem hb (.inl rfl)
    exact ⟨new, ⟨hf.table, hf.names⟩, hnew⟩
  | @funDecl f g _ name params body s s₁ b hname hg hb ih =>
    intro ho
    rw [List.flatMap_singleton] at ho ⊢
    have hnotMem : name ∉ s.table.names := fun hmem => hname (ho.apart name List.mem_cons_self hmem)
    obtain rfl : g = s.table.size := hg.trans (congrArg Prod.fst (FunctionTable.declare_new hnotMem params))
    obtain ⟨new, hf, hnew⟩ := Fills.within (d := ⟨some name, params, body⟩) ih ho.tail
      (.inl (ho.plain name List.mem_cons_self)) (List.nodup_cons.mp ho.nodup).1 hnotMem hb (.inl rfl)
    exact ⟨new, hf.next rfl (Nat.le_succ _), hnew⟩

theorem opens_initial {names : List String} (hnodup : names.Nodup) (hplain : ∀ name ∈ names, '#' ∉ name.toList) :
    Opens {} 0 names := by
  have hmain : ({} : Ledger).table.names = [mainName] := rfl
  refine ⟨Nat.one_pos, FunctionTable.numbered_initial, ?_, ?_, hnodup, hplain⟩
  · intro name hmem
    rw [hmain] at hmem
    rw [List.mem_singleton.mp hmem]
    exact Or.inl (by decide)
  · intro name _ hmem
    rw [hmain] at hmem
    exact List.mem_singleton.mp hmem

end Loading

/-- The table of a program whose functions have names of their own: `main` has the statements outside all functions,
and the others come in the order in which they are declared. -/
theorem FunctionTable.recorded_of_ofProgram {program : Program} {table : FunctionTable}
    (h : (FunctionTable.ofProgram program).result = .ok table)
    (hnodup : (Declared.names (Stmt.functionsAll program)).Nodup)
    (hplain : ∀ name ∈ Declared.names (Stmt.functionsAll program), '#' ∉ name.toList) :
    ∃ nodes rest, table.records = ⟨0, mainName, [], none, Node.entries nodes⟩ :: rest ∧
      Stmt.AllBecome table.names program nodes ∧
      List.Forall₂ (Declared.Recorded table.names) (Stmt.functionsAll program) rest := by
  obtain ⟨nodes, s, hload, rfl⟩ := loaded_of_ofProgram h
  have hfunctions : Stmt.functionsAll program = (program.map Piece.entry).flatMap Piece.functions := by
    rw [functionsAll_stmt, List.flatMap_map]
    rfl
  rw [hfunctions] at hnodup hplain ⊢
  obtain ⟨new, hf, hnew⟩ := hload.fills (opens_initial hnodup hplain)
  have hnodes := hload.becomes FunctionTable.numbered_initial List.prefix_rfl
  refine ⟨nodes, new, ?_, allBecome_stmts hnodes fun _ _ h => h, hnew _ List.prefix_rfl⟩
  rw [hf.table, entriesAll_map hnodes.length_eq fun _ _ => rfl]
  rfl

end Bies
