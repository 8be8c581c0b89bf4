import Bies.Proofs.CommandRuns

/-!
# Tracing

Two runs that differ in the level of tracing only read the same files, compile the same program and write to the
same path. So they end with the same code and leave the same files, but for what the traced one adds to an error
report.
-/

namespace Bies

/-! ## Arguments that ask for tracing -/

namespace Arguments

def traced (level : Option Nat) (a : Arguments) : Arguments := { a with trace := level }

namespace Draft

def traced (level : Option Nat) (d : Draft) : Draft := { d with trace := level }

def go (rest : List String) : Option Draft → Request
  | some d => d.read rest
  | none => .usageError

inductive Reads (arg : String) : Prop
  | settled {r : Request} (answer : ∀ a, r ≠ .compile a) (eq : ∀ d rest, read d (arg :: rest) = r) : Reads arg
  | files (eq : ∀ d rest, read d (arg :: rest) = d.readFiles rest) : Reads arg
  | inline (name value : String) (eq : ∀ d rest, read d (arg :: rest) = go rest (d.setOption? name value)) : Reads arg
  | spaced (name : String) (last : ∀ d, read d [arg] = .usageError)
    (eq : ∀ d value rest, read d (arg :: value :: rest) =
      if isOption name && isValue value then go rest (d.setOption? name value) else .usageError) : Reads arg
  | file (eq : ∀ d rest, read d (arg :: rest) = go rest (d.setFile? arg)) : Reads arg

theorem reads_flag {arg : String} {flag : List Char} (h : arg.toList = '-' :: '-' :: flag) (hne : flag ≠ []) :
    Reads arg := by
  cases hsplit : splitFlag flag with
  | mk name value =>
    cases value with
    | some value =>
      refine .inline name value fun d rest => ?_
      simp only [read, h, hsplit]
      rfl
    | none =>
      by_cases hv : name = "version"
      · refine .settled (r := .version) (by simp) fun d rest => ?_
        simp [read, h, hsplit, hv]
      by_cases hh : name = "help"
      · refine .settled (r := .help) (by simp) fun d rest => ?_
        simp [read, h, hsplit, hh]
      · refine .spaced name (fun d => ?_) fun d value rest => ?_
        · simp [read, h, hsplit]
        · simp [read, h, hsplit]
          rfl

theorem reads (arg : String) : Reads arg := by
  by_cases hfile : ∃ c cs, arg.toList = '-' :: c :: cs
  · obtain ⟨c, cs, h⟩ := hfile
    by_cases hdash : c = '-'
    · subst hdash
      by_cases hcs : cs = []
      · exact .files fun d rest => by simp [read, h, hcs]
      · exact reads_flag h hcs
    by_cases hV : c = 'V'
    · exact .settled (r := .version) (by simp) fun d rest => by simp [read, h, hV]
    by_cases hH : c = 'h'
    · exact .settled (r := .help) (by simp) fun d rest => by simp [read, h, hH]
    · exact .settled (r := .usageError) (by simp) fun d rest => by simp [read, h, hdash]
  · refine .file fun d rest => ?_
    rw [read]
    split
    next h => exact absurd ⟨_, _, h⟩ hfile
    next h => exact absurd ⟨_, _, h⟩ hfile
    next h => exact absurd ⟨_, _, h⟩ hfile
    next h => exact absurd ⟨_, _, h⟩ hfile
    next h => exact absurd ⟨_, _, h⟩ hfile
    · rfl

/-! ### Reading with another level -/

theorem setFile?_traced (d : Draft) (file : String) (level : Option Nat) :
    (d.traced level).setFile? file = (d.setFile? file).map (traced level) := by
  rw [setFile?, setFile?, apply_ite (Option.map (traced level))]
  rfl

theorem setOption?_traced (d : Draft) {name : String} (h : name ≠ "trace") (value : String) (level : Option Nat) :
    (d.traced level).setOption? name value = (d.setOption? name value).map (traced level) := by
  unfold setOption?
  split
  · rw [apply_ite (Option.map (traced level))]; rfl
  · rw [apply_ite (Option.map (traced level))]; rfl
  · rw [apply_ite (Option.map (traced level))]; rfl
  · exact absurd rfl h
  · rfl

/-- What is read with a level is the same for all levels, but for the level itself. -/
inductive Levelled (read : Option Nat → Request) : Prop
  /-- The level that is to be set later, if any, is refused. -/
  | settled {r : Request} (answer : ∀ a, r ≠ .compile a) (eq : ∀ level, read (some level) = r)
    (own : ∀ a, read none = .compile a → a.trace ≠ none) : Levelled read
  | compile (a : Arguments) (eq : ∀ level, read level = .compile (a.traced level)) : Levelled read

theorem levelled_finish (d : Draft) : Levelled fun level => (d.traced level).finish := by
  cases hfile : d.file with
  | none =>
    exact .settled (r := .usageError) (by simp) (fun level => by simp [finish, traced, hfile])
      (by simp [finish, traced, hfile])
  | some file =>
    exact .compile ⟨file, d.out, d.err, none, d.useConfig⟩ fun level => by simp [finish, traced,
      hfile, Arguments.traced]

theorem Levelled.of_answer {read : Option Nat → Request} {r : Request} (answer : ∀ a, r ≠ .compile a)
    (h : ∀ level, read level = r) : Levelled read :=
  .settled answer (fun level => h level) fun a ha => absurd ((h none).symm.trans ha) (answer a)

theorem levelled_go (d? : Option Draft) (rest : List String)
    (h : ∀ d : Draft, Levelled fun level => (d.traced level).read rest) :
    Levelled fun level => go rest (d?.map (traced level)) := by
  cases d? with
  | none => exact .of_answer (r := .usageError) (by simp) fun level => rfl
  | some d => exact h d

theorem levelled_readFiles (d : Draft) (files : List String) :
    Levelled fun level => (d.traced level).readFiles files := by
  induction files generalizing d with
  | nil => exact levelled_finish d
  | cons file rest ih =>
    simp only [readFiles, setFile?_traced]
    cases d.setFile? file with
    | none => exact .of_answer (r := .usageError) (by simp) fun level => rfl
    | some d => exact ih d

theorem levelled_setOption? (d : Draft) (name value : String) (rest : List String)
    (ih : ∀ d : Draft, Levelled fun level => (d.traced level).read rest) :
    Levelled fun level => go rest ((d.traced level).setOption? name value) := by
  by_cases hname : name = "trace"
  · subst hname
    refine .settled (r := .usageError) (by simp) (fun level => rfl) fun a ha => ?_
    cases hlevel : traceLevel? value with
    | none => simp [setOption?, traced, hlevel, go] at ha
    | some level =>
      simp only [setOption?, traced, hlevel] at ha
      -- From here on the level is the one that was set.
      cases ih d with
      | settled answer eq own => exact absurd ((eq level).symm.trans ha) (answer a)
      | compile b eq =>
        cases (eq (some level)).symm.trans ha
        simp [Arguments.traced]
  · simp only [setOption?_traced d hname]
    exact levelled_go _ rest ih

theorem levelled_read : ∀ (args : List String) (d : Draft), Levelled fun level => (d.traced level).read args
  | [], d => by
    simp only [read]
    exact levelled_finish d
  | arg :: rest, d => by
    cases reads arg with
    | settled answer eq => exact .of_answer answer fun level => eq _ _
    | files eq =>
      simp only [eq]
      exact levelled_readFiles d rest
    | inline name value eq =>
      simp only [eq]
      exact levelled_setOption? d name value rest (levelled_read rest)
    | spaced name last eq =>
      cases rest with
      | nil => exact .of_answer (r := .usageError) (by simp) fun level => last _
      | cons value rest =>
        simp only [eq]
        split
        · exact levelled_setOption? d name value rest (levelled_read rest)
        · exact .of_answer (r := .usageError) (by simp) fun level => rfl
    | file eq =>
      simp only [eq, setFile?_traced]
      exact levelled_go _ rest (levelled_read rest)

/-! ### The flag among other arguments -/

def flag (on : Bool) : List String := ["--trace", if on then "1" else "0"]

inductive Switched (read : Bool → Request) : Prop
  | settled {r : Request} (answer : ∀ a, r ≠ .compile a) (eq : ∀ on, read on = r) : Switched read
  | compile (a : Arguments) (eq : ∀ on, read on = .compile (a.traced (some on.toNat))) : Switched read

theorem switched_go (d? : Option Draft) {rest : Bool → List String}
    (h : ∀ d : Draft, Switched fun on => d.read (rest on)) : Switched fun on => go (rest on) d? := by
  cases d? with
  | none => exact .settled (r := .usageError) (by simp) fun on => rfl
  | some d => exact h d

theorem read_flag (d : Draft) (on : Bool) (rest : List String) :
    d.read (flag on ++ rest) = if d.trace.isNone then (d.traced (some on.toNat)).read rest else .usageError := by
  have hlevel : traceLevel? (if on then "1" else "0") = some on.toNat := by cases on <;> rfl
  have hoption : isOption "trace" = true := by decide
  have hvalue : isValue (if on then "1" else "0") = true := by cases on <;> decide
  cases htrace : d.trace <;> simp [flag, read, splitFlag, hoption, hvalue, setOption?, hlevel, htrace, traced]

theorem readFiles_flag (before rest : List String) (on : Bool) (d : Draft) :
    d.readFiles (before ++ (flag on ++ rest)) = .usageError := by
  induction before generalizing d with
  | nil => cases hfile : d.file <;> simp [flag, readFiles, setFile?, hfile]
  | cons file before ih =>
    rw [List.cons_append, readFiles]
    split
    · exact ih _
    · rfl

theorem switched_read :
    ∀ (before after : List String) (d : Draft), Switched fun on => d.read (before ++ (flag on ++ after))
  | [], after, d => by
    simp only [List.nil_append, read_flag]
    cases htrace : d.trace with
    | some level => exact .settled (r := .usageError) (by simp) (by simp)
    | none =>
      simp only [Option.isNone_none, if_true]
      cases levelled_read after d with
      | settled answer eq own => exact .settled answer fun on => eq _
      | compile a eq => exact .compile a fun on => eq _
  | arg :: before, after, d => by
    simp only [List.cons_append]
    cases reads arg with
    | settled answer eq => exact .settled answer fun on => eq _ _
    | files eq => exact .settled (r := .usageError) (by simp) fun on => by rw [eq, readFiles_flag]
    | inline name value eq =>
      simp only [eq]
      exact switched_go _ (switched_read before after)
    | spaced name last eq =>
      cases before with
      | nil =>
        have hvalue : isValue "--trace" = false := by decide
        exact .settled (r := .usageError) (by simp) fun on => by simp [flag, eq, hvalue]
      | cons value before =>
        simp only [List.cons_append, eq]
        split
        · exact switched_go _ (switched_read before after)
        · exact .settled (r := .usageError) (by simp) fun on => rfl
    | file eq =>
      simp only [eq]
      exact switched_go _ (switched_read before after)

end Draft
end Arguments

/-! ## Writing one text or another -/

namespace Files

/-- What a write does with the files depends on the text only where the text is put. -/
theorem write_uniform (fs : Files) (path : String) :
    (∃ r, (∀ text, fs.write path text = Except.map (fun _ : Unit => fs) r) ∧
        ∀ target, fs.target? path = some target → fs.get? target ∈ [some .sink, some .full]) ∨
      ∃ target, fs.target? path = some target ∧ fs.get? target ∉ [some .sink, some .full] ∧
        ∀ text, fs.write path text = .ok (fs.set target (.text text)) := by
  have hsound := fs.locate_sound path
  unfold write target?
  cases hlocate : fs.locate path with
  | error e => exact .inl ⟨.error e, fun text => rfl, by simp [Location.file?]⟩
  | ok location =>
    rw [hlocate] at hsound
    cases location with
    | directory => exact .inl ⟨.error .isDirectory, fun text => rfl, by simp [Location.file?]⟩
    | vacant target => exact .inr ⟨target, rfl, by simp [hsound.1], fun text => rfl⟩
    | file target content =>
      have hcontent : fs.get? target = some content := hsound
      cases content with
      | text old => exact .inr ⟨target, rfl, by simp [hcontent], fun text => rfl⟩
      | data => exact .inr ⟨target, rfl, by simp [hcontent], fun text => rfl⟩
      | sink => exact .inl ⟨.ok (), fun text => rfl, by rintro _ ⟨⟩; simp [hcontent]⟩
      | full => exact .inl ⟨.error .noSpace, fun text => rfl, by rintro _ ⟨⟩; simp [hcontent]⟩

theorem set_set (fs : Files) (path : AbsolutePath) (content content' : Content) :
    (fs.set path content).set path content' = fs.set path content' := by
  have hsome : ((fs.set path content).get? path).isSome := by simp [get?_set]
  rw [set, if_pos hsome, set, set]
  split
  · simp only [List.map_map]
    congr 1
    apply List.map_congr_left
    rintro ⟨p, old⟩ -
    by_cases hp : p = path <;> simp [hp]
  next hnone =>
    have hkept : ∀ file ∈ fs.contents, file.1 ≠ path := by
      rintro ⟨p, old⟩ hfile rfl
      have hlookup : fs.contents.lookup p = none := Option.not_isSome_iff_eq_none.1 hnone
      simpa using List.lookup_eq_none_iff.1 hlookup _ hfile
    simp only [List.map_append, List.map_cons, List.map_nil, if_true]
    congr 2
    refine (List.map_congr_left fun file hfile => ?_).trans (List.map_id _)
    rw [if_neg (hkept file hfile)]
    rfl

theorem run_write_uniform (α : Type) (fs : Files) (path : String) :
    (∃ r, (∀ text (k : Except FileError Unit → StateM Files α), (access.write path text >>= k).run
      fs = (k r).run fs) ∧
        ∀ target, fs.target? path = some target → fs.get? target ∈ [some .sink, some .full]) ∨
      ∃ target, fs.target? path = some target ∧ fs.get? target ∉ [some .sink, some .full] ∧
        ∀ text (k : Except FileError Unit → StateM Files α),
          (access.write path text >>= k).run fs = (k (.ok ())).run (fs.set target (.text text)) := by
  rcases fs.write_uniform path with ⟨r, hwrite, hkept⟩ | ⟨target, hleads, hplain, hwrite⟩
  · refine .inl ⟨r, fun text k => ?_, hkept⟩
    simp only [access, StateT.run_bind, StateT.run_get, pure_bind, hwrite]
    cases r <;> rfl
  · refine .inr ⟨target, hleads, hplain, fun text k => ?_⟩
    simp only [access, StateT.run_bind, StateT.run_get, pure_bind, hwrite]
    rfl

end Files

/-! ## Runs with tracing on and off -/

namespace Command

open Arguments.Draft (flag switched_read levelled_read read_flag)

structure Rejects (args : List String) (fs : Files) (a : Arguments) (config : Config) (source : String)
    (e : CompileError) : Prop where
  asks : Asks args fs a config
  found : fs.read a.file = .text source
  result : (compile config.compiler source.toList).result = .error e

theorem Rejects.found_eq {args : List String} {fs : Files} {a b : Arguments} {config config' : Config}
    {source source' : String} {e : CompileError} (h : Rejects args fs b config' source' e)
    (hrequest : Request.ofArguments args = .compile a) (hconfig : Configured fs a.useConfig config)
    (hfound : fs.read a.file = .text source) : b = a ∧ config' = config ∧ source' = source := by
  cases h.asks.request.symm.trans hrequest
  cases h.asks.configured.unique hconfig
  cases h.found.symm.trans hfound
  exact ⟨rfl, rfl, rfl⟩

/-- The traced run ends as the plain one does, and leaves the same files, but for an error report that is put
into a file: the traced one has one more line. -/
structure Adds (args : List String) (fs : Files) (plain traced : Report × Files) : Prop where
  exit_eq : traced.1.exit = plain.1.exit
  files_eq : (¬∃ a config source e, Rejects args fs a config source e) → traced.2 = plain.2
  unwritten : ∀ {a config source e}, Rejects args fs a config source e →
    (∀ target, fs.target? (errPath a config) = some target → fs.get? target ∈ [some .sink, some .full]) →
      traced.2 = plain.2
  written : ∀ {a config source e target}, Rejects args fs a config source e →
    fs.target? (errPath a config) = some target →
    fs.get? target ∉ [some .sink, some .full] → ∃ text, plain.2.get? target = some (.text text) ∧
      traced.2 = plain.2.set target (.text (text ++ s!"trace: {e.trace}\n"))

theorem errorText_true (file : String) (source : List Char) (e : CompileError) :
    errorText true file source e = errorText false file source e ++ s!"trace: {e.trace}\n" := by
  simp [errorText, toString, String.append_assoc]

theorem settings_traced (a : Arguments) (config : Config) (on : Bool) :
    Settings.of (a.traced (some on.toNat)) config = { Settings.of a config with trace := on } := by
  cases on <;> rfl

section
variable (fs : Files) (file : String) (settings : Settings) (source : List Char)

def switchedSource (on : Bool) : Report × Files :=
  (compileSource Files.access file { settings with trace := on } source).run fs

theorem switchedSource_ok {assembly : Assembly} (h : (compile settings.options source).result = .ok assembly) :
    ∃ exit fs', ∀ on, (switchedSource fs file settings source on).1.exit = exit ∧
      (switchedSource fs file settings source on).2 = fs' := by
  unfold switchedSource compileSource
  dsimp only
  rw [h]
  dsimp only
  rcases fs.run_write_uniform Report settings.out with ⟨r, hrun, -⟩ | ⟨target, -, -, hrun⟩
  · simp only [hrun]
    cases r with
    | ok u => exact ⟨0, fs, fun on => ⟨rfl, rfl⟩⟩
    | error cause => exact ⟨1, fs, fun on => ⟨rfl, rfl⟩⟩
  · simp only [hrun]
    exact ⟨0, _, fun on => ⟨rfl, rfl⟩⟩

theorem switchedSource_error {e : CompileError} (h : (compile settings.options source).result = .error e) :
    (∀ on, (switchedSource fs file settings source on).1.exit = 1) ∧
      ((∀ target, fs.target? settings.err = some target → fs.get? target ∈ [some .sink, some .full]) →
        ∀ on, (switchedSource fs file settings source on).2 = fs) ∧
      ∀ target, fs.target? settings.err = some target → fs.get? target ∉ [some .sink, some .full] →
        ∀ on, (switchedSource fs file settings source on).2 = fs.set target (.text (errorText on file source e)) := by
  unfold switchedSource compileSource
  dsimp only
  rw [h]
  dsimp only
  rcases fs.run_write_uniform Report settings.err with ⟨r, hrun, hkept⟩ | ⟨target, hleads, hplain, hrun⟩
  · simp only [hrun]
    refine ⟨fun on => ?_, fun _ on => ?_, fun target hleads hplain => absurd (hkept target hleads) hplain⟩
    · cases r <;> rfl
    · cases r <;> rfl
  · simp only [hrun]
    refine ⟨fun on => rfl, fun hkept => absurd (hkept target hleads) hplain, fun target' hleads' _ on => ?_⟩
    rw [← Option.some.inj (hleads.symm.trans hleads')]
    rfl

end

theorem compileFile_traced (fs : Files) (a : Arguments) :
    (∃ report, (∀ on : Bool, (compileFile Files.access (a.traced (some on.toNat))).run fs = (report, fs)) ∧
        ∀ config source, Configured fs a.useConfig config → fs.read a.file ≠ .text source) ∨
      ∃ config source, Configured fs a.useConfig config ∧ fs.read a.file = .text source ∧
        ∀ on : Bool, (compileFile Files.access (a.traced (some on.toNat))).run fs =
          switchedSource fs a.file (.of a config) source.toList on := by
  obtain ⟨config, hload, hconfig⟩ | ⟨obstacle, hload, hconfig⟩ := run_loadConfig fs a.useConfig
  · cases hread : fs.read a.file with
    | missing =>
      refine .inl ⟨giveUp "" (.sourceMissing a.file), fun on => ?_, by simp⟩
      rw [compileFile, StateT.run_bind, Arguments.traced, hload]
      change StateT.run (Files.access.read a.file >>= _) fs = _
      rw [Files.run_read, hread]
      rfl
    | unreadable cause =>
      refine .inl ⟨giveUp "" (.sourceUnreadable a.file cause), fun on => ?_, by simp⟩
      rw [compileFile, StateT.run_bind, Arguments.traced, hload]
      change StateT.run (Files.access.read a.file >>= _) fs = _
      rw [Files.run_read, hread]
      rfl
    | text source =>
      refine .inr ⟨config, source, hconfig, rfl, fun on => ?_⟩
      rw [compileFile, switchedSource, ← settings_traced, StateT.run_bind]
      simp only [Arguments.traced]
      rw [hload]
      change StateT.run (Files.access.read a.file >>= _) fs = _
      rw [Files.run_read, hread]
  · refine .inl ⟨giveUp "" obstacle, fun on => ?_, fun config _ h => absurd h (hconfig config)⟩
    rw [compileFile, StateT.run_bind, Arguments.traced, hload]
    rfl

theorem adds_run {args args' : List String} {fs : Files} {a : Arguments}
    (h : Request.ofArguments args = .compile (a.traced (some 0)))
    (h' : Request.ofArguments args' = .compile (a.traced (some 1))) :
    Adds args fs ((run Files.access args).run fs) ((run Files.access args').run fs) := by
  unfold run
  rw [h, h']
  dsimp only
  rcases compileFile_traced fs a with ⟨report, hrun, hnone⟩ | ⟨config, source, hconfig, hfound, hrun⟩
  · have hno : ∀ {b config source e}, ¬Rejects args fs b config source e := by
      rintro b config source e ⟨⟨hrequest, hconfig⟩, hfound, -⟩
      cases h.symm.trans hrequest
      exact hnone config source hconfig hfound
    have heq := (hrun true).trans (hrun false).symm
    exact ⟨congrArg (·.1.exit) heq, fun _ => congrArg (·.2) heq, fun hrejects => absurd hrejects hno,
      fun hrejects => absurd hrejects hno⟩
  · have htraced := hrun true
    have hplain := hrun false
    simp only [Bool.toNat_true, Bool.toNat_false] at htraced hplain
    rw [htraced, hplain]
    cases hresult : (compile config.compiler source.toList).result with
    | ok assembly =>
      obtain ⟨exit, fs', hsame⟩ := switchedSource_ok fs a.file (.of a config) source.toList hresult
      have heq := (hsame true).2.trans (hsame false).2.symm
      have hno : ∀ {b config source e}, ¬Rejects args fs b config source e := by
        intro b config' source' e hrejects
        obtain ⟨rfl, rfl, rfl⟩ := hrejects.found_eq h hconfig hfound
        cases hresult.symm.trans hrejects.result
      exact ⟨(hsame true).1.trans (hsame false).1.symm, fun _ => heq, fun _ _ => heq,
        fun hrejects => absurd hrejects hno⟩
    | error e =>
      obtain ⟨hexit, hkept, hput⟩ := switchedSource_error fs a.file (.of a config) source.toList hresult
      have hrejects : Rejects args fs (a.traced (some 0)) config source e := ⟨⟨h, hconfig⟩, hfound, hresult⟩
      refine ⟨(hexit true).trans (hexit false).symm, fun hno => absurd ⟨_, _, _, _, hrejects⟩ hno, ?_, ?_⟩
      · intro b config' source' e' hrejects hsink
        obtain ⟨rfl, rfl, rfl⟩ := hrejects.found_eq h hconfig hfound
        rw [hkept hsink true, hkept hsink false]
      · intro b config' source' e' target hrejects' hleads hfile
        obtain ⟨rfl, rfl, rfl⟩ := hrejects'.found_eq h hconfig hfound
        cases hresult.symm.trans hrejects'.result
        refine ⟨errorText false a.file source'.toList e, ?_, ?_⟩
        · rw [hput target hleads hfile false, Files.get?_set, if_pos rfl]
        · rw [hput target hleads hfile true, hput target hleads hfile false, Files.set_set, errorText_true]

theorem run_trace (fs : Files) :
    (∀ before after, Adds (before ++ (flag false ++ after)) fs
      ((run Files.access (before ++ (flag false ++ after))).run fs)
        ((run Files.access (before ++ (flag true ++ after))).run fs)) ∧
      ∀ args a, Request.ofArguments args = .compile a → a.trace = none →
        ∀ on : Bool, Request.ofArguments (flag on ++ args) = .compile (a.traced (some on.toNat)) := by
  constructor
  · intro before after
    cases switched_read before after {} with
    | settled answer eq =>
      have hrequest : ∀ on, Request.ofArguments (before ++ (flag on ++ after)) = _ := eq
      have hno : ∀ {b config source e}, ¬Rejects (before ++ (flag false ++ after)) fs b config source e :=
        fun hrejects => answer _ ((hrequest false).symm.trans hrejects.asks.request)
      unfold run
      rw [hrequest true, hrequest false]
      exact ⟨rfl, fun _ => rfl, fun _ _ => rfl, fun hrejects => absurd hrejects hno⟩
    | compile a eq => exact adds_run (eq false) (eq true)
  · intro args a hrequest htrace on
    rw [Request.ofArguments, read_flag]
    cases levelled_read args {} with
    | settled answer eq own => exact absurd htrace (own a hrequest)
    | compile b eq =>
      cases (eq none).symm.trans hrequest
      exact eq _

def brokenFiles : Files where
  here := ["w"]
  contents := [(["w", "a.bies"], .text "1 +")]

theorem run_trace_brokenFiles : ∃ e text, Rejects ["--trace", "0", "a.bies"] brokenFiles
    ⟨"a.bies", none, none, some 0, none⟩ {} "1 +" e ∧
    ((run Files.access ["--trace", "0", "a.bies"]).run brokenFiles).2.get? ["w", "a.err"] = some (.text text) ∧
    ((run Files.access ["--trace", "1", "a.bies"]).run brokenFiles).2 =
      ((run Files.access ["--trace", "0", "a.bies"]).run brokenFiles).2.set ["w", "a.err"]
        (.text (text ++ s!"trace: {e.trace}\n")) := by
  have hnone : (compile {} "1 +".toList).result.toOption.isNone = true := by decide +kernel
  cases hresult : (compile {} "1 +".toList).result with
  | ok assembly =>
    rw [hresult] at hnone
    cases hnone
  | error e =>
    have hrejects : Rejects ["--trace", "0", "a.bies"] brokenFiles ⟨"a.bies", none, none, some 0, none⟩ {} "1 +" e :=
      ⟨⟨rfl, .absent rfl⟩, rfl, hresult⟩
    obtain ⟨text, hplain, htraced⟩ := ((run_trace brokenFiles).1 [] ["a.bies"]).written hrejects rfl (by decide)
    exact ⟨e, text, hrejects, hplain, htraced⟩

end Command
end Bies
