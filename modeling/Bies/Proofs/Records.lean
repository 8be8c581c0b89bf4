import Bies.Proofs.LoadedBodies
import Bies.Proofs.Sharing

/-!
# What becomes of a record

A record is written by everyone who declares its name. A lambda empties it before its body is read, a `fun` does
not, and a declaration inside the body itself writes to the record while the body around it is being read: what
that body still has to come goes behind. `Changes` follows one name through the loading of a part of a program.
The record only grows while the name is not declared; after the last declaration by a lambda it has the
parameters of that lambda and begins with its body.
-/

namespace Bies

open Loading

/-! ## The declarations of a name -/

structure Declaration where
  /-- By a variable that holds a lambda. -/
  byLambda : Bool
  /-- In the body of a function with the same name. -/
  within : Bool
  params : List String
  body : Body

section
variable (x : String)

mutual

def Expr.declarations (within : Bool) : Expr → List Declaration
  | .arithmetic _ left _ right | .comparison _ left _ right => left.declarations within ++ right.declarations within
  | .call _ _ args => Expr.declarationsAll within args
  | .access _ _ index => index.declarations within
  | .list _ items => Expr.declarationsAll within items
  | .lambda _ _ body => body.declarations within
  | .int .. | .float .. | .str .. | .ident .. | .malformed .. => []

def Expr.declarationsAll (within : Bool) : List Expr → List Declaration
  | [] => []
  | e :: rest => e.declarations within ++ Expr.declarationsAll within rest

def Body.declarations (within : Bool) : Body → List Declaration
  | .block _ statements => Stmt.declarationsAll within statements
  | .value _ value => value.declarations within

def Stmt.declarations (within : Bool) : Stmt → List Declaration
  | .decl _ _ _ value | .ret _ value | .expr value => value.declarations within
  | .lambdaDecl _ name _ params body =>
    (if name = x then [⟨true, within, params, body⟩] else []) ++ body.declarations (within || name = x)
  | .funDecl _ name params body =>
    (if name = x then [⟨false, within, params, body⟩] else []) ++ body.declarations (within || name = x)
  | .letIn _ decls _ body => Stmt.declarationsAll within decls ++ Stmt.declarationsAll within body
  | .ifThen _ test _ body => test.declarations within ++ Stmt.declarationsAll within body
  | .ifElse _ test _ body _ other =>
    test.declarations within ++ (Stmt.declarationsAll within body ++ Stmt.declarationsAll within other)
  | .ifElseIf _ test _ body link =>
    test.declarations within ++ (Stmt.declarationsAll within body ++ link.declarations within)
  | .block _ statements => Stmt.declarationsAll within statements
  | .print _ args => Expr.declarationsAll within args
  | .malformed .. => []

def Stmt.declarationsAll (within : Bool) : List Stmt → List Declaration
  | [] => []
  | stmt :: rest => stmt.declarations within ++ Stmt.declarationsAll within rest

end

end

section
variable {x : String} {within : Bool}

mutual

theorem Expr.declarations_eq_nil (hx : '#' ∈ x.toList) : ∀ e : Expr, e.PlainNames → e.declarations x within = []
  | .arithmetic _ left _ right, h | .comparison _ left _ right, h => by
    rw [Expr.declarations, left.declarations_eq_nil hx h.1, right.declarations_eq_nil hx h.2, List.append_nil]
  | .call _ _ es, h | .list _ es, h => Expr.declarationsAll_eq_nil hx es h
  | .access _ _ index, h => index.declarations_eq_nil hx h
  | .lambda _ _ body, h => body.declarations_eq_nil hx h
  | .int .., _ | .float .., _ | .str .., _ | .ident .., _ | .malformed .., _ => rfl

theorem Expr.declarationsAll_eq_nil (hx : '#' ∈ x.toList) : ∀ es : List Expr, Expr.AllPlainNames es →
    Expr.declarationsAll x within es = []
  | [], _ => rfl
  | e :: rest, h => by
    rw [Expr.declarationsAll, e.declarations_eq_nil hx h.1, Expr.declarationsAll_eq_nil hx rest h.2, List.append_nil]

theorem Body.declarations_eq_nil (hx : '#' ∈ x.toList) :
    ∀ body : Body, body.PlainNames → body.declarations x within = []
  | .block _ statements, h => Stmt.declarationsAll_eq_nil hx statements h
  | .value _ e, h => e.declarations_eq_nil hx h

theorem Stmt.declarations_eq_nil (hx : '#' ∈ x.toList) :
    ∀ stmt : Stmt, stmt.PlainNames → stmt.declarations x within = []
  | .decl _ _ _ value, h | .ret _ value, h | .expr value, h => value.declarations_eq_nil hx h
  | .lambdaDecl _ name _ _ body, h | .funDecl _ name _ body, h => by
    have hname : name ≠ x := fun heq => h.1 (heq ▸ hx)
    rw [Stmt.declarations, if_neg hname, decide_eq_false hname, Bool.or_false, body.declarations_eq_nil hx h.2,
      List.append_nil]
  | .letIn _ decls _ body, h => by
    rw [Stmt.declarations, Stmt.declarationsAll_eq_nil hx decls h.1, Stmt.declarationsAll_eq_nil hx body h.2,
      List.append_nil]
  | .ifThen _ test _ body, h => by
    rw [Stmt.declarations, test.declarations_eq_nil hx h.1, Stmt.declarationsAll_eq_nil hx body h.2, List.append_nil]
  | .ifElse _ test _ body _ other, h => by
    rw [Stmt.declarations, test.declarations_eq_nil hx h.1, Stmt.declarationsAll_eq_nil hx body h.2.1,
      Stmt.declarationsAll_eq_nil hx other h.2.2, List.append_nil, List.append_nil]
  | .ifElseIf _ test _ body link, h => by
    rw [Stmt.declarations, test.declarations_eq_nil hx h.1, Stmt.declarationsAll_eq_nil hx body h.2.1,
      link.declarations_eq_nil hx h.2.2, List.append_nil, List.append_nil]
  | .block _ statements, h => Stmt.declarationsAll_eq_nil hx statements h
  | .print _ args, h => Expr.declarationsAll_eq_nil hx args h
  | .malformed .., _ => rfl

theorem Stmt.declarationsAll_eq_nil (hx : '#' ∈ x.toList) :
    ∀ statements : List Stmt, Stmt.AllPlainNames statements → Stmt.declarationsAll x within statements = []
  | [], _ => rfl
  | stmt :: rest, h => by
    rw [Stmt.declarationsAll, stmt.declarations_eq_nil hx h.1, Stmt.declarationsAll_eq_nil hx rest h.2, List.append_nil]

end

end

def Program.declarations (x : String) (program : Program) : List Declaration :=
  Stmt.declarationsAll x (mainName = x) program

/-! ## Records by name -/

def Body.statements : Body → List Stmt
  | .block _ statements => statements
  | .value span e => [.ret span e]

theorem Body.allBecome_statements {all : List String} {body : Body} {b : Node} (h : body.Becomes all b) :
    Stmt.AllBecome all body.statements b.statements := by
  cases body with
  | block span statements =>
    obtain ⟨id, ns, hns, rfl⟩ := h
    exact hns
  | value span value =>
    obtain ⟨id, v, hv, rfl⟩ := h
    exact ⟨_, [], ⟨id, v, hv, rfl⟩, rfl, rfl⟩

def FunctionRecord.extend (r : FunctionRecord) (entries : List Node) : FunctionRecord :=
  { r with sequence := r.sequence ++ entries }

theorem FunctionRecord.extend_nil (r : FunctionRecord) : r.extend [] = r := by
  rw [extend, List.append_nil]

theorem FunctionRecord.extend_extend (r : FunctionRecord) (a b : List Node) :
    (r.extend a).extend b = r.extend (a ++ b) := by
  rw [extend, extend, extend, List.append_assoc]

namespace FunctionTable

variable {t : FunctionTable} {f g : FunctionId} {x y home : String} {params : List String} {parent : FunctionId}

theorem get?_of_name (h : t.names.Nodup) (hf : t.names[f]? = some x) : t.get? x = t.records[f]? := by
  cases hr : t.get? x with
  | none => exact absurd (List.mem_of_getElem? hf) (get?_eq_none_iff.mp hr)
  | some r =>
    obtain ⟨g, hg⟩ := List.getElem?_of_mem (List.mem_of_find?_eq_some hr)
    have hname : r.name = x := by simpa using List.find?_some hr
    have hgx : t.names[g]? = some x := by rw [getElem?_names, hg, Option.map_some, hname]
    have hfg : f = g := (List.getElem?_inj (List.getElem?_eq_some_iff.mp hf).1 h).mp (hf.trans hgx.symm)
    rw [hfg, hg]

section
variable {change : FunctionRecord → FunctionRecord}

theorem get?_modify (h : t.names.Nodup) (hf : t.names[f]? = some home) (hc : ∀ r, (change r).name = r.name) :
    (FunctionTable.mk (t.records.modify f change)).get? x = if home = x then (t.get? x).map change else t.get? x := by
  by_cases hx : x ∈ t.names
  · obtain ⟨g, hg⟩ := List.getElem?_of_mem hx
    have hfg : home = x ↔ f = g := by
      rw [← Option.some.injEq, ← hf, ← hg]
      exact List.getElem?_inj (List.getElem?_eq_some_iff.mp hf).1 h
    rw [get?_of_name h hg, get?_of_name (by rwa [names_modify hc]) (by rwa [names_modify hc]), List.getElem?_modify]
    by_cases heq : f = g
    · rw [if_pos (hfg.mpr heq)]
      simp [heq]
    · rw [if_neg fun h => heq (hfg.mp h)]
      simp [heq]
  · have hne : home ≠ x := by
      rintro rfl
      exact hx (List.mem_of_getElem? hf)
    rw [if_neg hne, get?_eq_none_iff.mpr hx, get?_eq_none_iff, names_modify hc]
    exact hx

theorem get?_append (h : t.names.Nodup) (hf : t.names[f]? = some home) (n : Node) :
    (t.append f n).get? x = if home = x then (t.get? x).map (·.extend [n]) else t.get? x :=
  get?_modify h hf fun _ => rfl

theorem get?_clear (h : t.names.Nodup) (hf : t.names[f]? = some home) :
    (t.clear f).get? x = if home = x then (t.get? x).map ({ · with sequence := [] }) else t.get? x :=
  get?_modify h hf fun _ => rfl

theorem get?_map (hc : ∀ r, (change r).name = r.name) :
    (FunctionTable.mk (t.records.map change)).get? x = (t.get? x).map change := by
  have hsame : (fun r : FunctionRecord => decide (r.name = x)) ∘ change = fun r => decide (r.name = x) := by
    funext r
    simp [hc]
  rw [get?, get?, List.find?_map, hsame]

end

theorem get?_declare_of_ne (hne : y ≠ x) : (t.declare y params parent).2.get? x = t.get? x := by
  unfold declare
  cases t.get? y with
  | none => simp [get?, List.find?_append, hne]
  | some r =>
    dsimp only
    rw [get?_map fun r => by by_cases h : r.name = y <;> simp [h]]
    cases hr : t.get? x with
    | none => rfl
    | some r =>
      have hname : r.name = x := by simpa using List.find?_some hr
      rw [Option.map_some, if_neg fun h => hne (h.symm.trans hname)]

theorem get?_declare_self : ∃ r, (t.declare x params parent).2.get? x = some r ∧ r.params = params := by
  unfold declare
  cases hr : t.get? x with
  | none =>
    refine ⟨⟨t.size, x, params, some parent, []⟩, ?_, rfl⟩
    have hnone : t.records.find? (fun r => decide (r.name = x)) = none := hr
    simp [get?, List.find?_append, hnone]
  | some r =>
    refine ⟨{ r with params }, ?_, rfl⟩
    have hname : r.name = x := by simpa using List.find?_some hr
    dsimp only
    rw [get?_map fun r => by by_cases h : r.name = x <;> simp [h], hr, Option.map_some, if_pos hname]

end FunctionTable

/-- The record has the parameters of the declaration and begins with its body. Nothing comes behind if the
declaration does not stand in a body of the same function. -/
def Declaration.Begins (all : List String) (d : Declaration) (r : FunctionRecord) : Prop :=
  r.params = d.params ∧ ∃ ns rest, Stmt.AllBecome all d.body.statements ns ∧
    r.sequence = Node.entries ns ++ rest ∧
    (d.within = false → rest = [])

namespace Loading

/-! ## Steps that write a record -/

/-- Where a step of loading takes place: in a function with the name `home`, and inside a function with the watched name
or not. -/
structure Site where
  function : FunctionId
  home : String
  within : Bool

structure Watched (x : String) (p : Site) (s : Ledger) : Prop where
  numbered : s.table.Numbered
  home : s.table.names[p.function]? = some p.home
  within : p.home = x → p.within = true
  named : Named s.nextId x

/-- How the record with the name `x` comes from what was there `before`, if the step gives the function it takes place in
the entries and declares the name as in `ds`. -/
def Changes (all : List String) (x : String) (p : Site) (ds : List Declaration) (before after : Option FunctionRecord)
    (entries : List Node) : Prop :=
  match ds.getLast? with
  | none => after = if p.home = x then before.map (·.extend entries) else before
  | some d => x ≠ mainName ∧ (d.within = false → p.within = false) ∧
    (d.byLambda = true → ∃ r, after = some r ∧ d.Begins all r)

section
variable {all : List String} {x : String} {p q : Site} {s s' : Ledger}

theorem Watched.grow (h : Watched x p s) (hs : s.Grows s') : Watched x p s' :=
  ⟨hs.numbered h.numbered, getElem?_mono hs.names h.home, h.within, h.named.mono hs.nextId⟩

theorem changes_nil {before after : Option FunctionRecord} {entries : List Node} :
    Changes all x p [] before after entries ↔
    after = if p.home = x then before.map (·.extend entries) else before := Iff.rfl

theorem Changes.nothing (before : Option FunctionRecord) : Changes all x p [] before before [] := by
  unfold Changes
  simp [FunctionRecord.extend_nil]

theorem Changes.trans {ds es : List Declaration} {a b c : Option FunctionRecord} {entries more : List Node}
    (hp : p.home = x → p.within = true) (h : Changes all x p ds a b entries) (h' : Changes all x p es b c more) :
    Changes all x p (ds ++ es) a c (entries ++ more) := by
  unfold Changes at *
  rw [List.getLast?_append]
  cases hes : es.getLast? with
  | some d =>
    rw [hes] at h'
    exact h'
  | none =>
    rw [hes] at h'
    rw [Option.none_or]
    cases hds : ds.getLast? with
    | none =>
      rw [hds] at h
      dsimp only at h h' ⊢
      subst h h'
      by_cases hx : p.home = x
      · simp only [if_pos hx, Option.map_map]
        congr 1
        funext r
        exact r.extend_extend _ _
      · simp only [if_neg hx]
    | some d =>
      rw [hds] at h
      dsimp only at h h' ⊢
      obtain ⟨hmain, hwithin, hbegins⟩ := h
      refine ⟨hmain, hwithin, fun hd => ?_⟩
      obtain ⟨r, rfl, hparams, ns, rest, hbody, hsequence, hrest⟩ := hbegins hd
      by_cases hx : p.home = x
      · rw [if_pos hx] at h'
        refine ⟨_, h', hparams, ns, rest ++ more, hbody, ?_, fun hout => ?_⟩
        · show r.sequence ++ more = _
          rw [hsequence, List.append_assoc]
        · -- a step inside the function declares the name inside it
          rw [hp hx] at hwithin
          cases hwithin hout
      · rw [if_neg hx] at h'
        exact ⟨r, h', hparams, ns, rest, hbody, hsequence, hrest⟩

theorem Changes.own {d : Declaration} {ds : List Declaration} {f g : FunctionId} {home : String}
    {a b c : Option FunctionRecord} {entries : List Node} (hc : Changes all x ⟨g, x, true⟩ ds b c entries)
    (hmain : x ≠ mainName) (hd : d.byLambda = true → ds = [] → ∃ r, c = some r ∧ d.Begins all r) :
    Changes all x ⟨f, home, d.within⟩ (d :: ds) a c [] := by
  unfold Changes at hc ⊢
  rw [← List.singleton_append, List.getLast?_append]
  cases hds : ds.getLast? with
  | none => exact ⟨hmain, id, fun hl => hd hl (List.getLast?_eq_none_iff.mp hds)⟩
  | some e =>
    rw [hds] at hc
    obtain ⟨_, hwithin, hbegins⟩ := hc
    exact ⟨hmain, fun hout => absurd (hwithin hout) Bool.noConfusion, hbegins⟩

theorem Changes.leave {ds : List Declaration} {a b : Option FunctionRecord} {inner : List Node} (hq : q.home ≠ x)
    (hwithin : q.within = p.within) (h : Changes all x q ds a b inner) : Changes all x p ds a b [] := by
  unfold Changes at *
  cases hds : ds.getLast? with
  | none =>
    rw [hds] at h
    dsimp only at h ⊢
    rw [if_neg hq] at h
    simp [h, FunctionRecord.extend_nil]
  | some d =>
    rw [hds] at h
    exact hwithin ▸ h

theorem Changes.append {ds : List Declaration} {a : Option FunctionRecord} {entries : List Node} (n : Node)
    (hw : Watched x p s) (h : Changes all x p ds a (s.table.get? x) entries) :
    Changes all x p ds a ((s.table.append p.function n).get? x) (entries ++ [n]) := by
  have hn : Changes all x p [] (s.table.get? x) ((s.table.append p.function n).get? x) [n] :=
    FunctionTable.get?_append hw.numbered.nodup hw.home n
  simpa using h.trans hw.within hn

end

/-! ## Runs of the loader -/

def Piece.declarations (x : String) (within : Bool) : Piece → List Declaration
  | .expr e => e.declarations x within
  | .stmt s | .inner s | .entry s => s.declarations x within
  | .frame _ statements => Stmt.declarationsAll x within statements

section
variable {x : String} {within : Bool}

theorem declarationsAll_expr (es : List Expr) :
    Expr.declarationsAll x within es = es.flatMap (Expr.declarations x within) := by
  induction es with
  | nil => rfl
  | cons e rest ih => simp [Expr.declarationsAll, ih]

theorem declarationsAll_stmt (statements : List Stmt) :
    Stmt.declarationsAll x within statements = statements.flatMap (Stmt.declarations x within) := by
  induction statements with
  | nil => rfl
  | cons s rest ih => simp [Stmt.declarationsAll, ih]

theorem Builds.declarations {id : NodeId} {p : Piece} {ps : List Piece} {ns : List Node} {n : Node}
    (h : Builds id p ps ns n) : p.declarations x within = ps.flatMap (Piece.declarations x within) := by
  cases h <;> simp [Piece.declarations, Expr.declarations, Stmt.declarations, declarationsAll_expr, declarationsAll_stmt,
    List.flatMap_map]

theorem declarations_piece (body : Body) : body.piece.declarations x within = body.declarations x within := by
  cases body <;> rfl

end

theorem entries_piece {all : List String} {body : Body} {b : Node} (h : body.Becomes all b) :
    body.piece.entries b = Node.entries b.statements := by
  cases body with
  | block => rfl
  | value =>
    obtain ⟨id, v, -, rfl⟩ := h
    rfl

section
variable {all : List String} {x name : String} {f g : FunctionId} {home : String} {within : Bool}
  {s s₁ : Ledger} {b : Node}
  {params : List String} {body : Body}

theorem Watched.declare (h : Watched x ⟨f, home, within⟩ s) (hg : g = (s.table.declare name params f).1)
    {inside : Bool} (hinside : name = x → inside = true) :
    Watched x ⟨g, name, inside⟩ (s.declare name params f) :=
  ⟨h.numbered.declare, hg ▸ FunctionTable.name_declare h.numbered.id_eq, hinside, h.named⟩

theorem Changes.enter {after : Option FunctionRecord} {inner : List Node} (hne : name ≠ x)
    (hc : Changes all x ⟨g, name, within⟩ ([body.piece].flatMap (Piece.declarations x within))
      ((s.declare name params f).table.get? x) after inner) :
    Changes all x ⟨f, home, within⟩ (body.declarations x within) (s.table.get? x) after [] := by
  rw [List.flatMap_singleton, declarations_piece, Ledger.declare, FunctionTable.get?_declare_of_ne hne] at hc
  exact hc.leave (q := ⟨g, name, within⟩) hne rfl

theorem Changes.replace {before : Option FunctionRecord} (hw : Watched x ⟨g, x, true⟩ (s.declare x params f))
    (hmain : x ≠ mainName) (hbody : body.Becomes all b)
    (hc : Changes all x ⟨g, x, true⟩ (body.declarations x true) (((s.declare x params f).clear g).table.get? x)
      (s₁.table.get? x) (body.piece.entries b)) :
    Changes all x ⟨f, home,
      within⟩ (⟨true, within, params, body⟩ :: body.declarations x true) before (s₁.table.get? x) [] := by
  refine hc.own hmain fun _ hds => ?_
  obtain ⟨r, hr, hparams⟩ : ∃ r, (s.declare x params f).table.get? x = some r ∧ r.params = params :=
    FunctionTable.get?_declare_self
  have hcleared : ((s.declare x params f).clear g).table.get? x = some { r with sequence := [] } := by
    rw [Ledger.clear, FunctionTable.get?_clear hw.numbered.nodup hw.home, if_pos rfl, hr, Option.map_some]
  rw [hds, changes_nil, if_pos rfl, hcleared, Option.map_some, entries_piece hbody] at hc
  exact ⟨_, hc, hparams, b.statements, [], Body.allBecome_statements hbody, (List.append_nil _).symm, fun _ => rfl⟩

end

theorem Loaded.changes {all : List String} {x : String} {f : FunctionId} {ps : List Piece}
    {s s' : Ledger} {ns : List Node}
    (h : Loaded f ps s ns s') (hall : s'.table.names <+: all) : ∀ {home : String} {within : Bool}, Watched x
      ⟨f, home, within⟩ s →
      Changes all x ⟨f, home, within⟩ (ps.flatMap (Piece.declarations x within)) (s.table.get? x) (s'.table.get? x)
        (Piece.entriesAll ps ns) := by
  induction h with
  | nil => exact fun _ => .nothing _
  | cons hn hns ih ihs =>
    intro home within hw
    have hc := (ih (hns.grows.1.names.trans hall) hw).trans hw.within (ihs hall (hw.grow hn.grows.1))
    simpa [Piece.entriesAll] using hc
  | build hb hns ih =>
    intro home within hw
    rw [List.flatMap_singleton, entriesAll_singleton, hb.declarations,
      hb.entries (hns.becomes hw.numbered List.prefix_rfl).length_eq]
    exact ih hall hw
  | expr hn ih =>
    intro home within hw
    have hnested := (Expr.nested_of_becomes (List.forall₂_cons.mp (hn.becomes hw.numbered List.prefix_rfl)).1).1
    rw [entriesAll_singleton, Piece.entries, hnested]
    exact ih hall hw
  | inner hd _ ih =>
    intro home within hw
    rw [entriesAll_singleton, Piece.entries, hd, if_neg Bool.false_ne_true]
    exact ih hall hw
  | declared hd hn ih =>
    intro home within hw
    have hc := ih (FunctionTable.names_append.symm ▸ hall) hw
    rw [entriesAll_singleton] at hc ⊢
    rw [Piece.entries, hd, if_pos rfl]
    exact hc.append _ (hw.grow hn.grows.1)
  | entry hn ih =>
    intro home within hw
    have hc := ih (FunctionTable.names_append.symm ▸ hall) hw
    rw [entriesAll_singleton] at hc ⊢
    exact hc.append _ (hw.grow hn.grows.1)
  | lambda hg _ ih =>
    intro home within hw
    have hne := hw.named.ne_lambdaName.symm
    have hnumber := hw.grow (Ledger.Grows.refl _).number
    rw [List.flatMap_singleton]
    exact (ih hall (hnumber.declare hg fun h => absurd h hne)).enter (s := Ledger.number _) hne
  | @lambdaDecl f g _ _ name params body s _ b hname hg hb ih =>
    intro home within hw
    have hnumber := hw.grow (Ledger.Grows.refl s).number
    rw [List.flatMap_singleton, Piece.declarations, Stmt.declarations]
    by_cases hx : name = x
    · subst hx
      rw [if_pos rfl, decide_eq_true rfl, Bool.or_true]
      have hdeclared : Watched name ⟨g, name, true⟩ (s.number.declare name params f) :=
        hnumber.declare hg fun _ => rfl
      have hc := ih hall (hdeclared.grow ((Ledger.Grows.refl _).clear g))
      rw [List.flatMap_singleton, declarations_piece, entriesAll_singleton] at hc
      have hbody := becomes_piece.mp (List.forall₂_cons.mp (hb.becomes hdeclared.numbered.clear hall)).1
      exact .replace hdeclared hname hbody hc
    · rw [if_neg hx, decide_eq_false hx, Bool.or_false]
      have hdeclared : Watched x ⟨g, name, within⟩ (s.number.declare name params f) :=
        hnumber.declare hg fun h => absurd h hx
      have hc := ih hall (hdeclared.grow ((Ledger.Grows.refl _).clear g))
      rw [Ledger.clear, FunctionTable.get?_clear hdeclared.numbered.nodup hdeclared.home, if_neg hx] at hc
      exact hc.enter (s := s.number) hx
  | @funDecl f g _ name params body s _ b hname hg hb ih =>
    intro home within hw
    rw [List.flatMap_singleton, Piece.declarations, Stmt.declarations]
    by_cases hx : name = x
    · subst hx
      rw [if_pos rfl, decide_eq_true rfl, Bool.or_true]
      have hdeclared : Watched name ⟨g, name, true⟩ (s.declare name params f) := hw.declare hg fun _ => rfl
      have hc := ih hall hdeclared
      rw [List.flatMap_singleton, declarations_piece] at hc
      exact hc.own hname fun h => absurd h Bool.noConfusion
    · rw [if_neg hx, decide_eq_false hx, Bool.or_false]
      exact (ih hall (hw.declare hg fun h => absurd h hx)).enter hx

theorem watched_initial {x : String} (hx : '#' ∉ x.toList) :
    Watched x ⟨0, mainName, decide (mainName = x)⟩ {} where
  numbered := FunctionTable.numbered_initial
  home := rfl
  within := decide_eq_true
  named := .inl hx

end Loading

/-- What becomes of the record with a name that a lambda without a name cannot have. -/
theorem FunctionTable.changes_of_ofProgram {program : Program} {table : FunctionTable}
    (h : (FunctionTable.ofProgram program).result = .ok table) {x : String} (hx : '#' ∉ x.toList) :
    table.Numbered ∧ ∃ entries, Changes table.names x ⟨0, mainName, decide (mainName = x)⟩
      (program.declarations x) (FunctionTable.initial.get? x) (table.get? x) entries := by
  obtain ⟨nodes, s, hload, rfl⟩ := loaded_of_ofProgram h
  have hw := watched_initial hx
  have hc := hload.changes List.prefix_rfl hw
  rw [List.flatMap_map] at hc
  rw [Program.declarations, declarationsAll_stmt]
  exact ⟨(hw.grow hload.grows.1).numbered, _, hc⟩

end Bies
