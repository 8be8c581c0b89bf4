import Bies.Proofs.FoldedRuns
import Bies.Proofs.MadeNodes
import Bies.Proofs.SourceOrder

/-!
# Where functions are declared

A name may be declared in several functions, but its record keeps the parent of the first declaration. `Program.sites`
lists the declarations of a program in the order in which they are read, each with the function it stands in. A
declaration that the table holds in the sequence of a function is one of them, and that function is the parent exactly
if the first declaration of the name stands there.
-/

namespace Bies

open Loading Program

/-! ## The declarations of a program -/

/-- What reading a construct does to the number of the next node, and the names it declares, each with the name of the
function in which that happens. -/
abbrev Survey : Type := NodeId → NodeId × List (String × String)

namespace Survey

def nothing : Survey := fun k => (k, [])

def node : Survey := fun k => (k + 1, [])

def declares (name home : String) : Survey := fun k => (k, [(name, home)])

def andThen (a b : Survey) : Survey := fun k => ((b (a k).1).1, (a k).2 ++ (b (a k).1).2)

theorem andThen_node (a : Survey) (k : NodeId) : a.andThen node k = ((a k).1 + 1, (a k).2) := by
  simp [andThen, node]

@[simp] theorem andThen_nothing (a : Survey) : a.andThen nothing = a := by
  funext k
  simp [andThen, nothing]

@[simp] theorem nothing_andThen (a : Survey) : nothing.andThen a = a := rfl

@[simp] theorem andThen_assoc (a b c : Survey) : (a.andThen b).andThen c = a.andThen (b.andThen c) := by
  funext k
  simp [andThen]

end Survey

mutual

def Expr.survey (home : String) : Expr → Survey
  | .int .. | .float .. | .str .. | .ident .. => .node
  | .arithmetic _ left _ right | .comparison _ left _ right =>
    (left.survey home).andThen ((right.survey home).andThen .node)
  | .call _ _ args => (Expr.surveyAll home args).andThen .node
  | .access _ _ index => (index.survey home).andThen .node
  | .list _ items => (Expr.surveyAll home items).andThen .node
  | .lambda _ _ body => fun k =>
    Survey.node.andThen ((Survey.declares s!"lambda#{k}" home).andThen (body.survey s!"lambda#{k}")) k
  | .malformed .. => .nothing

def Expr.surveyAll (home : String) : List Expr → Survey
  | [] => .nothing
  | e :: rest => (e.survey home).andThen (Expr.surveyAll home rest)

def Body.survey (home : String) : Body → Survey
  | .block _ statements => (Stmt.surveyAll home statements).andThen .node
  | .value _ value => (value.survey home).andThen .node

def Stmt.survey (home : String) : Stmt → Survey
  | .decl _ _ _ value | .ret _ value => (value.survey home).andThen .node
  | .lambdaDecl _ name _ _ body => Survey.node.andThen ((Survey.declares name home).andThen (body.survey name))
  | .funDecl _ name _ body => (Survey.declares name home).andThen ((body.survey name).andThen .node)
  | .letIn _ decls _ body =>
    (Stmt.surveyAll home decls).andThen ((Stmt.surveyAll home body).andThen (Survey.node.andThen .node))
  | .ifThen _ test _ body => (test.survey home).andThen (((Stmt.surveyAll home body).andThen .node).andThen .node)
  | .ifElse _ test _ body _ other =>
    (test.survey home).andThen (((Stmt.surveyAll home body).andThen .node).andThen
      (((Stmt.surveyAll home other).andThen .node).andThen .node))
  | .ifElseIf _ test _ body link =>
    (test.survey home).andThen (((Stmt.surveyAll home body).andThen .node).andThen ((link.survey home).andThen .node))
  | .block _ statements => (Stmt.surveyAll home statements).andThen .node
  | .print _ args => (Expr.surveyAll home args).andThen .node
  | .expr value => value.survey home
  | .malformed .. => .nothing

def Stmt.surveyAll (home : String) : List Stmt → Survey
  | [] => .nothing
  | s :: rest => (s.survey home).andThen (Stmt.surveyAll home rest)

end

/-- The declarations of functions in the order in which they are read, each with the function it stands in. A lambda that
is used as a value has the name it gets in the table. -/
def Program.sites (program : Program) : List (String × String) := (Stmt.surveyAll mainName program 0).2

/-! ## What stays known -/

structure World where
  log : List (String × String)
  names : List String

structure World.Grows (w w' : World) : Prop where
  log : w.log <+: w'.log
  names : w.names <+: w'.names

theorem World.Grows.getElem? {w w' : World} (h : w.Grows w') {f : FunctionId} {name : String}
    (hf : w.names[f]? = some name) : w'.names[f]? = some name := by
  obtain ⟨more, hmore⟩ := h.names
  rw [← hmore, List.getElem?_append_left (List.getElem?_eq_some_iff.mp hf).1, hf]

/-- Every declaration in the node was read as one in the function `home`, and goes to the record of its name. -/
def Node.Placed (home : String) (n : Node) (w : World) : Prop :=
  ∀ tag name params f, .funDecl tag name params f ∈ n :: n.inside false → (name, home) ∈ w.log ∧
    w.names[f]? = some name

theorem Node.Placed.mono {home : String} {n : Node} {w w' : World} (h : n.Placed home w) (hw : w.Grows w') :
    n.Placed home w' := by
  intro tag name params f hmem
  obtain ⟨hlog, hname⟩ := h _ _ _ _ hmem
  exact ⟨hw.log.subset hlog, hw.getElem? hname⟩

theorem Node.placed_of_children {home : String} {n : Node} {w : World} (hn : n.isFunction = false)
    (h : ∀ c ∈ n.children, c.Placed home w) : n.Placed home w := by
  intro tag name params f hmem
  rcases List.mem_cons.mp hmem with rfl | hmem
  · cases hn
  · rw [inside_eq false (isLambda_of_not_isFunction hn), mem_insideAll] at hmem
    obtain ⟨c, hc, hmem⟩ := hmem
    exact h c hc _ _ _ _ (List.mem_cons.mpr hmem)

theorem Node.placed_lambda {home : String} {tag : Tag} {params : List String} {body : Node} {f : FunctionId}
    {w : World} : (Node.lambda tag params body f).Placed home w := by
  intro tag' name' params' f' hmem
  simp [Node.inside] at hmem

theorem Node.placed_funDecl {home name : String} {tag : Tag} {params : List String} {f : FunctionId} {w : World}
    (h : (name, home) ∈ w.log ∧ w.names[f]? = some name) : (Node.funDecl tag name params f).Placed home w := by
  intro tag' name' params' f' hmem
  simp only [Node.inside, List.mem_singleton, Node.funDecl.injEq] at hmem
  obtain ⟨-, rfl, -, rfl⟩ := hmem
  exact h

namespace Loading

structure Traced (log : List (String × String)) (t : FunctionTable) : Prop extends t.Numbered where
  known : ∀ p ∈ log, p.1 ∈ t.names ∧ p.1 ≠ mainName
  parents : ∀ {f : FunctionId} {r : FunctionRecord}, t.records[f]? = some r → r.name ≠ mainName →
    ∃ p home, r.parent = some p ∧ t.names[p]? = some home ∧ log.lookup r.name = some home
  placed : ∀ {f : FunctionId} {r : FunctionRecord}, t.records[f]? = some r →
    ∀ n ∈ r.sequence, n.Placed r.name ⟨log, t.names⟩

namespace Traced

variable {log : List (String × String)} {t : FunctionTable} {f : FunctionId} {n : Node} {home name : String}

theorem append (h : Traced log t) (hf : t.names[f]? = some home) (hn : n.Placed home ⟨log, t.names⟩) :
    Traced log (t.append f n) where
  toNumbered := h.toNumbered.append
  known p hp := by
    rw [FunctionTable.names_append]
    exact h.known p hp
  parents {g _} hr' hne := by
    obtain ⟨r, hr, rfl⟩ := records_append hr'
    rw [FunctionTable.names_append]
    by_cases hfg : f = g
    · rw [if_pos hfg] at hne ⊢
      exact (h.parents hr hne :)
    · rw [if_neg hfg] at hne ⊢
      exact h.parents hr hne
  placed {g _} hr' m hm := by
    obtain ⟨r, hr, rfl⟩ := records_append hr'
    rw [FunctionTable.names_append]
    by_cases hfg : f = g
    · subst hfg
      rw [if_pos rfl] at hm ⊢
      rw [FunctionTable.getElem?_names, hr] at hf
      rcases List.mem_append.mp hm with hm | hm
      · exact h.placed hr m hm
      · rw [List.mem_singleton.mp hm, show r.name = home from Option.some.inj hf]
        exact hn
    · rw [if_neg hfg] at hm ⊢
      exact h.placed hr m hm

theorem clear (h : Traced log t) (f : FunctionId) : Traced log (t.clear f) where
  toNumbered := h.toNumbered.clear
  known p hp := by
    rw [FunctionTable.names_clear]
    exact h.known p hp
  parents hr' hne := by
    rw [FunctionTable.names_clear]
    obtain ⟨r, hr, rfl | rfl⟩ := records_clear hr'
    · exact h.parents hr hne
    · exact (h.parents hr hne :)
  placed hr' m hm := by
    rw [FunctionTable.names_clear]
    obtain ⟨r, hr, rfl | rfl⟩ := records_clear hr'
    · exact h.placed hr m hm
    · cases hm

theorem lookup_eq_none (h : Traced log t) (hname : name ∉ t.names) : log.lookup name = none := by
  rw [List.lookup_eq_none_iff]
  intro p hp
  rw [bne_iff_ne]
  rintro rfl
  exact hname (h.known p hp).1

theorem declare (h : Traced log t) (hf : t.names[f]? = some home) (hname : name ≠ mainName) (params : List String) :
    Traced (log ++ [(name, home)]) (t.declare name params f).2 := by
  have hgrows : World.Grows ⟨log, t.names⟩ ⟨log ++ [(name, home)], (t.declare name params f).2.names⟩ :=
    ⟨List.prefix_append _ _, FunctionTable.names_prefix_declare⟩
  have hold : ∀ {g : FunctionId} {r : FunctionRecord}, t.records[g]? = some r → r.name ≠ mainName →
      ∃ p home', r.parent = some p ∧ (t.declare name params f).2.names[p]? = some home' ∧
        (log ++ [(name, home)]).lookup r.name = some home' := by
    intro g r hr hne
    obtain ⟨p, home', hp, hhome, hlookup⟩ := h.parents hr hne
    refine ⟨p, home', hp, hgrows.getElem? hhome, ?_⟩
    rw [List.lookup_append, hlookup, Option.some_or]
  refine ⟨h.toNumbered.declare, ?_, fun hr' hne => ?_, fun hr' m hm => ?_⟩
  · intro p hp
    rcases List.mem_append.mp hp with hp | hp
    · exact ⟨hgrows.names.subset (h.known p hp).1, (h.known p hp).2⟩
    · obtain rfl := List.mem_singleton.mp hp
      exact ⟨List.mem_of_getElem? (FunctionTable.name_declare h.id_eq), hname⟩
  · rcases records_declare hr' with ⟨r, hr, rfl | rfl⟩ | ⟨rfl, rfl⟩
    · exact hold hr hne
    · exact (hold hr hne :)
    · have hnew : name ∉ t.names := by
        intro hmem
        have hlt := (List.getElem?_eq_some_iff.mp hr').1
        have hlength : (t.declare name params f).2.names.length = t.names.length := by
          rw [FunctionTable.names_declare_of_mem hmem]
        simp only [FunctionTable.names, List.length_map] at hlength
        simp only [FunctionTable.size] at hlt
        omega
      refine ⟨f, home, rfl, hgrows.getElem? hf, ?_⟩
      rw [List.lookup_append, h.lookup_eq_none hnew, Option.none_or, List.lookup_cons_self]
  · rcases records_declare hr' with ⟨r, hr, rfl | rfl⟩ | ⟨rfl, rfl⟩
    · exact (h.placed hr m hm).mono hgrows
    · exact (h.placed hr m hm).mono hgrows
    · cases hm

end Traced

theorem traced_initial : Traced [] FunctionTable.initial where
  toNumbered := FunctionTable.numbered_initial
  known _ h := absurd h List.not_mem_nil
  parents {f r} hr hne := by
    obtain ⟨rfl, rfl⟩ : f = 0 ∧ _ = r := by simpa [FunctionTable.initial, List.getElem?_singleton] using hr
    exact absurd rfl hne
  placed hr _ hn := absurd ⟨_, hr, hn⟩ FunctionTable.not_holds_initial

/-! ## Runs of the loader -/

def Piece.survey (home : String) : Piece → Survey
  | .expr e => e.survey home
  | .stmt s | .inner s | .entry s => s.survey home
  | .frame _ statements => (Stmt.surveyAll home statements).andThen .node

def Piece.surveyAll (home : String) : List Piece → Survey
  | [] => .nothing
  | p :: rest => (p.survey home).andThen (Piece.surveyAll home rest)

section
variable {home : String}

theorem surveyAll_exprs (es : List Expr) : Expr.surveyAll home es = Piece.surveyAll home (es.map .expr) := by
  induction es with
  | nil => rfl
  | cons e rest ih => exact congrArg _ ih

theorem surveyAll_stmts {piece : Stmt → Piece} (hp : ∀ s, (piece s).survey home = s.survey home)
    (statements : List Stmt) : Stmt.surveyAll home statements = Piece.surveyAll home (statements.map piece) := by
  induction statements with
  | nil => rfl
  | cons s rest ih => rw [Stmt.surveyAll, List.map_cons, Piece.surveyAll, ih, hp]

theorem surveyAll_concat (ps : List Piece) (p : Piece) :
    Piece.surveyAll home (ps ++ [p]) = (Piece.surveyAll home ps).andThen (p.survey home) := by
  induction ps with
  | nil => exact (Survey.andThen_nothing _).trans rfl
  | cons q rest ih => rw [List.cons_append, Piece.surveyAll, ih, Piece.surveyAll, Survey.andThen_assoc]

theorem Builds.survey {id : NodeId} {p : Piece} {ps : List Piece} {ns : List Node} {n : Node} (h : Builds id p ps ns n) :
    p.survey home = (Piece.surveyAll home ps).andThen .node := by
  have hinner (statements : List Stmt) : Stmt.surveyAll home statements = Piece.surveyAll home (statements.map .inner) :=
    surveyAll_stmts (fun _ => rfl) statements
  cases h with
  | letIn => simp [surveyAll_concat, Piece.survey, Stmt.survey, hinner]
  | frame => exact congrArg (Survey.andThen · .node) (surveyAll_stmts (fun _ => rfl) _)
  | _ => simp [Piece.survey, Expr.survey, Stmt.survey, Piece.surveyAll, surveyAll_exprs, hinner]

theorem survey_piece (body : Body) : body.piece.survey home = body.survey home := by
  cases body <;> rfl

end

/-- Loading in a function with the name `home` reads what the survey says, and the nodes are placed there. -/
structure Surveyed (log : List (String × String)) (home : String) (survey : Survey) (k : NodeId) (ns : List Node)
    (s' : Ledger) : Prop where
  nextId : s'.nextId = (survey k).1
  traced : Traced (log ++ (survey k).2) s'.table
  placed : ∀ n ∈ ns, n.Placed home ⟨log ++ (survey k).2, s'.table.names⟩

theorem Surveyed.node {log : List (String × String)} {home : String} {survey : Survey} {k : NodeId} {s₁ : Ledger}
    {ns : List Node} {n : Node} {f : FunctionId} (h : Surveyed log home survey k ns s₁)
    (hn : n.Placed home ⟨log ++ (survey k).2, s₁.table.names⟩) :
    Surveyed log home (survey.andThen .node) k [n] (s₁.number.make f n) := by
  refine ⟨?_, ?_, ?_⟩
  · rw [Survey.andThen_node]
    exact congrArg (· + 1) h.nextId
  · rw [Survey.andThen_node]
    exact h.traced
  · rw [Survey.andThen_node]
    exact List.forall_mem_singleton.mpr hn

theorem Surveyed.declared {log : List (String × String)} {name home : String} {body : Body} {k : NodeId}
    {s₁ : Ledger} {b : Node}
    (h : Surveyed (log ++ [(name, home)]) name (Piece.surveyAll name [body.piece]) k [b] s₁) :
    Surveyed log home ((Survey.declares name home).andThen (body.survey name)) k [] s₁ ∧
      (name, home) ∈ log ++ ((Survey.declares name home).andThen (body.survey name) k).2 := by
  have hsurvey : Piece.surveyAll name [body.piece] = body.survey name :=
    (Survey.andThen_nothing _).trans (survey_piece body)
  rw [hsurvey] at h
  refine ⟨⟨h.nextId, ?_, by simp⟩, by simp [Survey.andThen, Survey.declares]⟩
  simpa [Survey.andThen, Survey.declares] using h.traced

theorem Loaded.surveyed {f : FunctionId} {ps : List Piece} {s s' : Ledger} {ns : List Node} (h : Loaded f ps s ns s') :
    ∀ {log : List (String × String)} {home : String}, Traced log s.table → s.table.names[f]? = some home →
      Surveyed log home (Piece.surveyAll home ps) s.nextId ns s' := by
  induction h with
  | nil =>
    intro log home ht _
    refine ⟨rfl, ?_, by simp⟩
    simpa [Piece.surveyAll, Survey.nothing] using ht
  | cons hn hns ih ihs =>
    intro log home ht hf
    simp only [Piece.surveyAll, Survey.andThen_nothing] at ih ⊢
    obtain ⟨hnext, ht₁, hplaced⟩ := ih ht hf
    obtain ⟨hnext', ht₂, hplaced'⟩ := ihs ht₁ (getElem?_mono hn.grows.1.names hf)
    rw [hnext, List.append_assoc] at ht₂ hplaced'
    rw [hnext] at hnext'
    refine ⟨hnext', ht₂, List.forall_mem_cons.mpr
      ⟨(hplaced _ List.mem_cons_self).mono ⟨?_, hns.grows.1.names⟩, hplaced'⟩⟩
    rw [Survey.andThen, ← List.append_assoc]
    exact List.prefix_append _ _
  | build hb _ ih =>
    intro log home ht hf
    have h := ih ht hf
    rw [Piece.surveyAll, Piece.surveyAll, Survey.andThen_nothing, hb.survey]
    exact h.node (Node.placed_of_children hb.isFunction fun c hc => h.placed c (hb.children.subset hc))
  | expr _ ih | inner _ _ ih =>
    intro log home ht hf
    have h := ih ht hf
    exact ⟨h.nextId, h.traced, h.placed⟩
  | declared _ hn ih | entry hn ih =>
    intro log home ht hf
    have h := ih ht hf
    refine ⟨h.nextId, h.traced.append (getElem?_mono hn.grows.1.names hf) (h.placed _ List.mem_cons_self), ?_⟩
    rw [Ledger.append, FunctionTable.names_append]
    exact h.placed
  | @lambda _ _ _ _ _ s _ _ hg _ ih =>
    intro log home ht hf
    have hmain : s!"lambda#{s.nextId}" ≠ mainName :=
      fun heq => absurd (heq ▸ hash_mem_lambdaName s.nextId) (by decide)
    obtain ⟨h, -⟩ := (ih (ht.declare hf hmain _) (hg ▸ FunctionTable.name_declare ht.id_eq)).declared
    rw [Piece.surveyAll, Piece.surveyAll, Survey.andThen_nothing]
    exact ⟨h.nextId, h.traced, List.forall_mem_singleton.mpr Node.placed_lambda⟩
  | @lambdaDecl f g _ _ name params _ s _ _ hname hg hb ih =>
    intro log home ht hf
    have hg' : ((s.number.declare name params f).clear g).table.names[g]? = some name := by
      rw [Ledger.clear, FunctionTable.names_clear]
      exact hg ▸ FunctionTable.name_declare ht.id_eq
    obtain ⟨h, hsite⟩ := (ih ((ht.declare hf hname _).clear _) hg').declared
    rw [Piece.surveyAll, Piece.surveyAll, Survey.andThen_nothing]
    refine ⟨h.nextId, h.traced, List.forall_mem_singleton.mpr (Node.placed_funDecl ?_)⟩
    exact ⟨hsite, getElem?_mono hb.grows.1.names hg'⟩
  | @funDecl f g _ name params _ s _ _ hname hg hb ih =>
    intro log home ht hf
    have hg' : (s.declare name params f).table.names[g]? = some name := hg ▸ FunctionTable.name_declare ht.id_eq
    obtain ⟨h, hsite⟩ := (ih (ht.declare hf hname _) hg').declared
    rw [Piece.surveyAll, Piece.surveyAll, Survey.andThen_nothing, Piece.survey, Stmt.survey, ← Survey.andThen_assoc]
    exact h.node (Node.placed_funDecl ⟨hsite, getElem?_mono hb.grows.1.names hg'⟩)

end Loading

/-! ## The table of a program -/

/-- A declaration of the function `f`, with that name, stands in the sequence, not in the body of a lambda. -/
def FunctionRecord.declares (r : FunctionRecord) (name : String) (f : FunctionId) : Bool :=
  r.sequence.any fun entry => (entry :: entry.inside false).any fun
    | .funDecl _ name' _ f' => name' = name && f' = f
    | _ => false

theorem FunctionRecord.declares_iff {r : FunctionRecord} {name : String} {f : FunctionId} :
    r.declares name f = true ↔
    ∃ entry ∈ r.sequence, ∃ tag params, .funDecl tag name params f ∈ entry :: entry.inside false := by
  unfold declares
  rw [List.any_eq_true]
  refine exists_congr fun entry => and_congr_right fun _ => ?_
  rw [List.any_eq_true]
  constructor
  · rintro ⟨n, hn, hdecl⟩
    cases n with
    | funDecl tag name' params f' =>
      simp only [Bool.and_eq_true, decide_eq_true_eq] at hdecl
      obtain ⟨rfl, rfl⟩ := hdecl
      exact ⟨tag, params, hn⟩
    | _ => cases hdecl
  · rintro ⟨tag, params, hn⟩
    exact ⟨_, hn, by simp⟩

namespace FunctionTable

variable {program : Program} {table : FunctionTable}

theorem traced_of_ofProgram (h : (ofProgram program).result = .ok table) : Traced program.sites table := by
  obtain ⟨nodes, s, hload, rfl⟩ := loaded_of_ofProgram h
  have hmain : FunctionTable.initial.names[0]? = some mainName := rfl
  have htraced := (hload.surveyed traced_initial hmain).traced
  rwa [← surveyAll_stmts fun _ => rfl] at htraced

variable {source : List Char} {tree : Tree}

/-- A declaration that the table holds in the sequence of a function was read there. That function is the parent of the
declared one exactly if the first declaration of the name was read there too, and then its frames follow the own frame of
the declared one. -/
theorem parent_eq_iff_of_ofTree (h : (ofProgram (.ofTree source tree)).result = .ok table) {P : FunctionRecord}
    (hP : P ∈ table.records) {name : String} {f : FunctionId} (hdecl : P.declares name f = true) :
    (name, P.name) ∈ (Program.ofTree source tree).sites ∧ ∃ r, table.byId? f = some r ∧ r.name = name ∧
      (r.parent = some P.id ↔ (Program.ofTree source tree).sites.lookup name = some P.name) ∧
      (r.parent = some P.id → table.chain f = f :: table.chain P.id) := by
  have htraced := traced_of_ofProgram h
  have hsound := sound_of_ofProgram (ofTree_within tree) h
  obtain ⟨i, hi⟩ := List.getElem?_of_mem hP
  obtain rfl := htraced.id_eq hi
  obtain ⟨n, hn, tag, params, hmem⟩ := FunctionRecord.declares_iff.mp hdecl
  obtain ⟨hsite, hname⟩ := htraced.placed hi n hn _ _ _ _ hmem
  rw [getElem?_names] at hname
  obtain ⟨r, hr, rfl⟩ := Option.map_eq_some_iff.mp hname
  obtain ⟨p, home, hparent, hhome, hlookup⟩ := htraced.parents hr (htraced.known _ hsite).2
  refine ⟨hsite, r, hr, rfl, ?_, fun hp => ?_⟩
  · rw [hparent, hlookup, Option.some.injEq, Option.some.injEq]
    -- names in the table are different, so the parent is known by its name
    have hPname : table.names[P.id]? = some P.name := by rw [getElem?_names, hi, Option.map_some]
    constructor
    · rintro rfl
      rw [hhome] at hPname
      exact Option.some.inj hPname
    · rintro rfl
      have hlt := (List.getElem?_eq_some_iff.mp hhome).1
      exact (List.getElem?_inj hlt htraced.nodup).mp (hhome.trans hPname.symm)
  · rw [chain_eq, tail_chain hsound.outward hr hp]

def nestedSource : List Char := "fun f() { fun g() { return 1 } return g() } print(f())".toList

theorem parent_eq_of_nestedSource : ∃ tree table P r, Tree.parse nestedSource = .ok tree ∧
    (ofProgram (.ofTree nestedSource tree)).result = .ok table ∧ P ∈ table.records ∧ P.name = "f" ∧
    P.declares "g" 2 = true ∧ table.byId? 2 = some r ∧ r.parent = some P.id ∧
      table.chain 2 = 2 :: table.chain P.id := by
  obtain ⟨tree, hparse, hp⟩ := Tree.exists_of_parse nestedSource (p := fun tree =>
    decide ((Program.ofTree nestedSource tree).sites.lookup "g" = some "f") &&
      (ofProgram (.ofTree nestedSource tree)).result.toOption.any fun table =>
        table.records.any fun P => decide (P.name = "f") && P.declares "g" 2) (by decide +kernel)
  rw [Bool.and_eq_true, decide_eq_true_eq] at hp
  obtain ⟨hfirst, htable⟩ := hp
  cases hload : (ofProgram (.ofTree nestedSource tree)).result with
  | error e =>
    rw [hload] at htable
    cases htable
  | ok table =>
    rw [hload] at htable
    obtain ⟨P, hP, hmade⟩ := List.any_eq_true.mp htable
    rw [Bool.and_eq_true, decide_eq_true_eq] at hmade
    obtain ⟨hname, hdecl⟩ := hmade
    obtain ⟨-, r, hr, -, hparent, hchain⟩ := parent_eq_iff_of_ofTree hload hP hdecl
    have hP' : r.parent = some P.id := hparent.mpr (by rw [hfirst, hname])
    exact ⟨tree, table, P, r, hparse, hload, hP, hname, hdecl, hr, hP', hchain hP'⟩

def movedSource : List Char :=
  "let f = () => { let h = () => 1 return 0 } let f = () => 0 let x = 5 let h = () => x print(h())".toList

theorem parent_ne_of_movedSource : ∃ tree table P r, Tree.parse movedSource = .ok tree ∧
    (ofProgram (.ofTree movedSource tree)).result = .ok table ∧ P ∈ table.records ∧ P.name = mainName ∧
    P.declares "h" 2 = true ∧ (∀ Q ∈ table.records, Q.declares "h" 2 = true → Q.id = P.id) ∧
    table.byId? 2 = some r ∧ r.parent ≠ some P.id := by
  obtain ⟨tree, hparse, htable⟩ := Tree.exists_of_parse movedSource (p := fun tree =>
    (ofProgram (.ofTree movedSource tree)).result.toOption.any fun table => table.records.any fun P =>
      decide (P.name = mainName) && P.declares "h" 2 &&
        table.records.all (fun Q => !Q.declares "h" 2 || decide (Q.id = P.id)) &&
        (table.byId? 2).any fun r => decide (r.parent ≠ some P.id)) (by decide +kernel)
  cases hload : (ofProgram (.ofTree movedSource tree)).result with
  | error e =>
    rw [hload] at htable
    cases htable
  | ok table =>
    rw [hload] at htable
    obtain ⟨P, hP, hmade⟩ := List.any_eq_true.mp htable
    simp only [Bool.and_eq_true, decide_eq_true_eq, List.all_eq_true, Option.any_eq_true] at hmade
    obtain ⟨⟨⟨hname, hdecl⟩, honly⟩, r, hr, hparent⟩ := hmade
    refine ⟨tree, table, P, r, hparse, hload, hP, hname, hdecl, fun Q hQ hQdecl => ?_, hr, hparent⟩
    simpa [hQdecl] using honly Q hQ

end FunctionTable
end Bies
