import Bies.Number

/-!
# Arguments

`biesc [--o FILE] [--e FILE] [--trace 0|1] [--use-config FILE] FILE`, in any order. A value follows its
flag, or an equals sign behind it. After `--` nothing is a flag.
-/

namespace Bies

structure Arguments where
  file : String
  out : Option String := none
  err : Option String := none
  trace : Option Nat := none
  useConfig : Option String := none
deriving DecidableEq, Repr

/-- What the user asks for. -/
inductive Request where
  | compile (arguments : Arguments)
  | version
  | help
  /-- The arguments make no sense. -/
  | usageError
deriving DecidableEq, Repr

/-- The arguments read so far. -/
structure Arguments.Draft where
  file : Option String := none
  out : Option String := none
  err : Option String := none
  trace : Option Nat := none
  useConfig : Option String := none

namespace Arguments.Draft

/-- The file to compile is given, once and with a name. -/
def setFile? (d : Draft) (file : String) : Option Draft :=
  if d.file.isNone ∧ file ≠ "" then some { d with file := some file } else none

/-- 0 or 1, as a whole number. -/
def traceLevel? (value : String) : Option Nat :=
  match readInt? value.toList with
  | some n => if n = 0 then some 0 else if n = 1 then some 1 else none
  | none => none

def isOption (name : String) : Bool := name ∈ ["o", "e", "trace", "use-config"]

/-- A flag is given, once and with a value that suits it. -/
def setOption? (d : Draft) (name value : String) : Option Draft :=
  match name with
  | "o" => if d.out.isNone ∧ value ≠ "" then some { d with out := some value } else none
  | "e" => if d.err.isNone ∧ value ≠ "" then some { d with err := some value } else none
  | "use-config" =>
    if d.useConfig.isNone ∧ value ≠ "" then some { d with useConfig := some value } else none
  | "trace" =>
    if d.trace.isNone then (traceLevel? value).map fun level => { d with trace := some level } else none
  | _ => none

def finish (d : Draft) : Request :=
  match d.file with
  | some file => .compile ⟨file, d.out, d.err, d.trace, d.useConfig⟩
  | none => .usageError

/-- The arguments after `--`. -/
def readFiles (d : Draft) : List String → Request
  | [] => d.finish
  | file :: rest =>
    match d.setFile? file with
    | some d => readFiles d rest
    | none => .usageError

/-- An argument that may stand where the value of a flag is expected. -/
def isValue (arg : String) : Bool := arg = "-" || arg.toList.head? ≠ some '-'

/-- The name of a flag, and its value if an equals sign follows. -/
def splitFlag (flag : List Char) : String × Option String :=
  match flag.dropWhile (· ≠ '=') with
  | [] => (.ofList flag, none)
  | _ :: value => (.ofList (flag.takeWhile (· ≠ '=')), some (.ofList value))

def read (d : Draft) : List String → Request
  | [] => d.finish
  | arg :: rest =>
    match arg.toList with
    | ['-', '-'] => d.readFiles rest
    | '-' :: '-' :: flag =>
      match splitFlag flag, rest with
      | ("version", none), _ => .version
      | ("help", none), _ => .help
      | (name, some value), rest =>
        match d.setOption? name value with
        | some d => read d rest
        | none => .usageError
      | (name, none), value :: rest =>
        if isOption name && isValue value then
          match d.setOption? name value with
          | some d => read d rest
          | none => .usageError
        else .usageError
      | (_, none), [] => .usageError
    | '-' :: 'V' :: _ => .version
    | '-' :: 'h' :: _ => .help
    | '-' :: _ :: _ => .usageError
    | _ =>
      match d.setFile? arg with
      | some d => read d rest
      | none => .usageError

end Arguments.Draft

/-- What a list of arguments asks for. Reading stops at the first one that settles it. -/
def Request.ofArguments (args : List String) : Request := Arguments.Draft.read {} args

end Bies
