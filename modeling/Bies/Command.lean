import Bies.Command.Arguments
import Bies.Command.Files
import Bies.Compile
import Bies.Config

/-!
# The command

Compiles one file. The result goes to the output file, what is wrong with the program to the error file,
and everything else to the user. Settings come from the arguments, else from a configuration file, else
from the name of the source.
-/

namespace Bies

/-- What the user gets to see, and the code with which the command ends. -/
structure Report where
  exit : UInt32
  stdout : String := ""
  stderr : String := ""

namespace Command

def versionText : String := "biesc 0.1.0\n"

def usageText : String :=
  "Usage: biesc [--o <OUTFILE>] [--e <ERRFILE>] [--trace <LEVEL>] [--use-config <CONFIG>] <FILE>\n"

/-- The configuration file that is used, if it is there, when none is asked for. -/
def defaultConfig : String := ".config_biesm.json"

/-- What keeps the command from doing its work. -/
inductive Obstacle where
  | configMissing (path : String)
  | configUnreadable (path : String) (cause : FileError)
  | configInvalid (path : String)
  | sourceMissing (path : String)
  | sourceUnreadable (path : String) (cause : FileError)
  | writeFailed (path : String) (cause : FileError)
deriving DecidableEq, Repr

def Obstacle.message : Obstacle → String
  | .configMissing path => s!"config file {path} does not exist"
  | .configUnreadable path cause => s!"failed to read config file {path}: {cause.message}"
  | .configInvalid path => s!"failed to parse config file {path}: not a configuration"
  | .sourceMissing path => s!"source file {path} does not exist"
  | .sourceUnreadable path cause => s!"failed to read {path}: {cause.message}"
  | .writeFailed path cause => s!"failed to write {path}: {cause.message}"

/-- Where the results go and how the program is compiled. -/
structure Settings where
  out : String
  err : String
  /-- Tell everything. -/
  trace : Bool
  options : Options

/-- Arguments come before the configuration. -/
def Settings.of (args : Arguments) (config : Config) : Settings where
  out := (args.out <|> config.outfile).getD (withExtension args.file "basm")
  err := (args.err <|> config.errfile).getD (withExtension args.file "err")
  trace := (args.trace <|> config.trace).getD 0 = 1
  options := config.compiler

/-- The events worth showing, a line each. -/
def showEvents (trace : Bool) (events : List Event) : String :=
  String.join ((events.filter fun e => trace || e.level.isUrgent).map fun e => e.render ++ "\n")

/-- The command gives up. -/
def giveUp (shown : String) (obstacle : Obstacle) : Report where
  exit := 1
  stderr := s!"{shown}error: {obstacle.message}\n"

/-- The text for the error file. -/
def errorText (trace : Bool) (file : String) (source : List Char) (e : CompileError) : String :=
  let details := if trace then s!"trace: {e.trace}\n" else ""
  s!"{file}: {e.report source}\n{details}"

variable {m : Type → Type} [Monad m] (files : FileAccess m)

/-- The configuration to use. It may only be missing if it was not asked for. -/
def loadConfig (asked : Option String) : m (Except Obstacle Config) := do
  let path := asked.getD defaultConfig
  match ← files.read path with
  | .missing => return if asked.isSome then .error (.configMissing path) else .ok {}
  | .unreadable cause => return .error (.configUnreadable path cause)
  | .text text =>
    match Config.parse? text with
    | some config => return .ok config
    | none => return .error (.configInvalid path)

/-- Compiles the source of the file and writes the result or the error. -/
def compileSource (file : String) (settings : Settings) (source : List Char) : m Report := do
  let outcome := compile settings.options source
  let events := .compiling file settings.out :: outcome.events
  match outcome.result with
  | .ok assembly =>
    match ← files.write settings.out assembly.render with
    | .ok () =>
      let events := events ++ [.done assembly.functions.length assembly.skipped.length]
      return { exit := 0, stderr := showEvents settings.trace events }
    | .error cause => return giveUp (showEvents settings.trace events) (.writeFailed settings.out cause)
  | .error e =>
    match ← files.write settings.err (errorText settings.trace file source e) with
    | .ok () =>
      let events := events ++ [.failed e.message settings.err]
      return { exit := 1, stderr := showEvents settings.trace events }
    | .error cause => return giveUp (showEvents settings.trace events) (.writeFailed settings.err cause)

def compileFile (args : Arguments) : m Report := do
  match ← loadConfig files args.useConfig with
  | .error obstacle => return giveUp "" obstacle
  | .ok config =>
    match ← files.read args.file with
    | .missing => return giveUp "" (.sourceMissing args.file)
    | .unreadable cause => return giveUp "" (.sourceUnreadable args.file cause)
    | .text source => compileSource files args.file (.of args config) source.toList

/-- Does what the arguments ask for. -/
def run (args : List String) : m Report := do
  match Request.ofArguments args with
  | .compile args => compileFile files args
  | .version => return { exit := 0, stdout := versionText }
  | .help => return { exit := 0, stdout := usageText }
  | .usageError => return { exit := 2, stderr := usageText }

end Command
end Bies
