import Bies.Command
import Bies.Proofs.FileWrites

/-!
# What a run of the command changes

A run reads the configuration and the source, and only then writes, once. So a run that stops before
leaves all files alone, and any other changes no file but the one to which it writes.
-/

namespace Bies

namespace Files

theorem run_read {α : Type} (fs : Files) (path : String) (k : Entry → StateM Files α) :
    (access.read path >>= k).run fs = (k (fs.read path)).run fs :=
  rfl

theorem run_write {α : Type} (fs : Files) (path text : String)
    (k : Except FileError Unit → StateM Files α) :
    (∃ fs', (access.write path text >>= k).run fs = (k (.ok ())).run fs' ∧ fs.Puts path text fs') ∨
      ∃ cause, (access.write path text >>= k).run fs = (k (.error cause)).run fs ∧ ¬ fs.Takes path := by
  obtain ⟨fs', hwrite, hputs⟩ | ⟨cause, hwrite, htakes⟩ := fs.write_cases path text
  · refine .inl ⟨fs', ?_, hputs⟩
    simp only [access, StateT.run_bind, StateT.run_get, pure_bind, hwrite]
    rfl
  · refine .inr ⟨cause, ?_, htakes⟩
    simp only [access, StateT.run_bind, StateT.run_get, pure_bind, hwrite]
    rfl

end Files

namespace Command

/-- The configuration of a run. Only the one that is used by default may be missing. -/
inductive Configured (fs : Files) : Option String → Config → Prop
  | asked {path text : String} {config : Config} (found : fs.read path = .text text)
    (valid : Config.parse? text = some config) : Configured fs (some path) config
  | standard {text : String} {config : Config} (found : fs.read defaultConfig = .text text)
    (valid : Config.parse? text = some config) : Configured fs none config
  | absent (missing : fs.read defaultConfig = .missing) : Configured fs none {}

theorem Configured.read_eq {fs : Files} {asked : Option String} {config : Config}
    (h : Configured fs asked config) :
    (∃ text, fs.read (asked.getD defaultConfig) = .text text ∧ Config.parse? text = some config) ∨
      asked = none ∧ fs.read defaultConfig = .missing := by
  cases h with
  | asked found valid => exact .inl ⟨_, found, valid⟩
  | standard found valid => exact .inl ⟨_, found, valid⟩
  | absent missing => exact .inr ⟨rfl, missing⟩

theorem Configured.unique {fs : Files} {asked : Option String} {config config' : Config} (h : Configured fs asked config)
    (h' : Configured fs asked config') : config = config' := by
  cases h <;> cases h' <;> simp_all

theorem run_loadConfig (fs : Files) (asked : Option String) :
    (∃ config, (loadConfig Files.access asked).run fs = (.ok config, fs) ∧ Configured fs asked config) ∨
      ∃ obstacle, (loadConfig Files.access asked).run fs = (.error obstacle, fs) ∧
        ∀ config, ¬ Configured fs asked config := by
  unfold loadConfig
  dsimp only
  rw [Files.run_read]
  cases hread : fs.read (asked.getD defaultConfig) with
  | missing =>
    cases asked with
    | none => exact .inl ⟨{}, rfl, .absent hread⟩
    | some path =>
      refine .inr ⟨.configMissing path, rfl, fun config h => ?_⟩
      cases h with
      | asked found valid => cases hread.symm.trans found
  | unreadable cause =>
    refine .inr ⟨.configUnreadable _ cause, rfl, fun config h => ?_⟩
    obtain ⟨text, htext, -⟩ | ⟨rfl, hmissing⟩ := h.read_eq
    · cases hread.symm.trans htext
    · cases hread.symm.trans hmissing
  | text text =>
    dsimp only
    cases hparse : Config.parse? text with
    | some config =>
      refine .inl ⟨config, rfl, ?_⟩
      cases asked with
      | none => exact .standard hread hparse
      | some path => exact .asked hread hparse
    | none =>
      refine .inr ⟨.configInvalid _, rfl, fun config h => ?_⟩
      obtain ⟨text', htext, hvalid⟩ | ⟨rfl, hmissing⟩ := h.read_eq
      · cases hread.symm.trans htext
        cases hparse.symm.trans hvalid
      · cases hread.symm.trans hmissing

structure Asks (args : List String) (fs : Files) (a : Arguments) (config : Config) : Prop where
  request : Request.ofArguments args = .compile a
  configured : Configured fs a.useConfig config

/-- The path for the result: the one asked for, else the configured one, else one beside the source. -/
def outPath (a : Arguments) (config : Config) : String :=
  (a.out <|> config.outfile).getD (withExtension a.file "basm")

def errPath (a : Arguments) (config : Config) : String :=
  (a.err <|> config.errfile).getD (withExtension a.file "err")

/-- The ways in which a run can end, with its code and the files it leaves. -/
inductive Ending (args : List String) (fs : Files) : UInt32 → Files → Prop
  | informed (request : Request.ofArguments args = .version ∨ Request.ofArguments args = .help) :
    Ending args fs 0 fs
  | misused {exit : UInt32} (request : Request.ofArguments args = .usageError) (failed : exit ≠ 0) :
    Ending args fs exit fs
  | unconfigured {a : Arguments} {exit : UInt32} (request : Request.ofArguments args = .compile a)
    (unusable : ∀ config, ¬ Configured fs a.useConfig config) (failed : exit ≠ 0) : Ending args fs exit fs
  | unreadable {a : Arguments} {config : Config} {exit : UInt32} (asks : Asks args fs a config)
    (unreadable : ∀ source, fs.read a.file ≠ .text source) (failed : exit ≠ 0) : Ending args fs exit fs
  | compiled {a : Arguments} {config : Config} {source : String} {assembly : Assembly} {fs' : Files}
    (asks : Asks args fs a config) (found : fs.read a.file = .text source)
    (result : (compile config.compiler source.toList).result = .ok assembly)
    (written : fs.Puts (outPath a config) assembly.render fs') : Ending args fs 0 fs'
  | unsaved {a : Arguments} {config : Config} {source : String} {assembly : Assembly} {exit : UInt32}
    (asks : Asks args fs a config) (found : fs.read a.file = .text source)
    (result : (compile config.compiler source.toList).result = .ok assembly)
    (unwritten : ¬ fs.Takes (outPath a config)) (failed : exit ≠ 0) : Ending args fs exit fs
  | rejected {a : Arguments} {config : Config} {source : String} {e : CompileError} {fs' : Files}
    (asks : Asks args fs a config) (found : fs.read a.file = .text source)
    (result : (compile config.compiler source.toList).result = .error e)
    (written : fs.Puts (errPath a config)
      (errorText ((a.trace <|> config.trace).getD 0 = 1) a.file source.toList e) fs')
    (untouched : fs.target? (outPath a config) ≠ fs.target? (errPath a config) →
      fs'.read (outPath a config) = fs.read (outPath a config)) : Ending args fs 1 fs'
  | unreported {a : Arguments} {config : Config} {source : String} {e : CompileError} {exit : UInt32}
    (asks : Asks args fs a config) (found : fs.read a.file = .text source)
    (result : (compile config.compiler source.toList).result = .error e)
    (unwritten : ¬ fs.Takes (errPath a config)) (failed : exit ≠ 0) : Ending args fs exit fs

theorem exit_giveUp (shown : String) (obstacle : Obstacle) : (giveUp shown obstacle).exit ≠ 0 := by
  change (1 : UInt32) ≠ 0
  decide

theorem ending_compileSource {args : List String} {fs : Files} {a : Arguments} {config : Config}
    {source : String} (asks : Asks args fs a config) (found : fs.read a.file = .text source) :
    ∃ report fs', (compileSource Files.access a.file (.of a config) source.toList).run fs = (report, fs') ∧
      Ending args fs report.exit fs' := by
  unfold compileSource
  dsimp only
  have hoptions : (Settings.of a config).options = config.compiler := rfl
  rw [hoptions]
  cases hresult : (compile config.compiler source.toList).result with
  | ok assembly =>
    dsimp only
    obtain ⟨fs', hrun, hputs⟩ | ⟨cause, hrun, htakes⟩ := fs.run_write (outPath a config) assembly.render _
    · exact ⟨_, fs', hrun, .compiled asks found hresult hputs⟩
    · exact ⟨_, fs, hrun, .unsaved asks found hresult htakes (exit_giveUp _ _)⟩
  | error e =>
    dsimp only
    obtain ⟨fs', hrun, hputs⟩ | ⟨cause, hrun, htakes⟩ := fs.run_write (errPath a config) _ _
    · exact ⟨_, fs', hrun, .rejected asks found hresult hputs hputs.read_of_ne⟩
    · exact ⟨_, fs, hrun, .unreported asks found hresult htakes (exit_giveUp _ _)⟩

theorem ending_run (args : List String) (fs : Files) :
    ∃ report fs', (run Files.access args).run fs = (report, fs') ∧ Ending args fs report.exit fs' := by
  unfold run
  cases hrequest : Request.ofArguments args with
  | version => exact ⟨_, fs, rfl, .informed (.inl hrequest)⟩
  | help => exact ⟨_, fs, rfl, .informed (.inr hrequest)⟩
  | usageError => exact ⟨_, fs, rfl, .misused hrequest (by decide)⟩
  | compile a =>
    dsimp only
    unfold compileFile
    rw [StateT.run_bind]
    obtain ⟨config, hrun, hconfig⟩ | ⟨obstacle, hrun, hconfig⟩ := run_loadConfig fs a.useConfig
    · rw [hrun]
      change ∃ report fs', StateT.run (Files.access.read a.file >>= _) fs = _ ∧ _
      rw [Files.run_read]
      have asks : Asks args fs a config := ⟨hrequest, hconfig⟩
      cases hread : fs.read a.file with
      | missing =>
        exact ⟨_, fs, rfl, .unreadable asks (fun source h => by cases hread.symm.trans h) (exit_giveUp _ _)⟩
      | unreadable cause =>
        exact ⟨_, fs, rfl, .unreadable asks (fun source h => by cases hread.symm.trans h) (exit_giveUp _ _)⟩
      | text source => exact ending_compileSource asks hread
    · rw [hrun]
      exact ⟨_, fs, rfl, .unconfigured hrequest hconfig (exit_giveUp _ _)⟩

theorem Ending.exists_frame {args : List String} {fs fs' : Files} {exit : UInt32}
    (h : Ending args fs exit fs') : ∃ target, ∀ p, p ≠ target → fs'.get? p = fs.get? p := by
  cases h with
  | compiled asks found result written => exact written.exists_frame
  | rejected asks found result written untouched => exact written.exists_frame
  | informed | misused | unconfigured | unreadable | unsaved | unreported => exact ⟨[], fun p _ => rfl⟩

/-- A run changes at most one file: that for the result if the program compiles, that for errors if it does
not. A run that fails for another reason changes none. -/
theorem run_changes (args : List String) (fs : Files) :
    Ending args fs ((run Files.access args).run fs).1.exit ((run Files.access args).run fs).2 ∧
      ∃ target, ∀ p, p ≠ target → ((run Files.access args).run fs).2.get? p = fs.get? p := by
  obtain ⟨report, fs', hrun, hending⟩ := ending_run args fs
  rw [hrun]
  exact ⟨hending, hending.exists_frame⟩

def twoFiles : Files where
  here := ["w"]
  contents := [(["w", "a.bies"], .text "print(1)"), (["w", "b"], .text "old")]

example : ((run Files.access ["a.bies", "--o=../w/b"]).run twoFiles).1.exit = 0 ∧
    ((run Files.access ["a.bies", "--o=../w/b"]).run twoFiles).2.contents = [(["w", "a.bies"], .text "print(1)"),
      (["w", "b"], .text "$FUN $0 args:0 parent:$0\nLDV 1\nPRN\nHLT\n$END\n")] := by
  decide +kernel

end Command
end Bies
