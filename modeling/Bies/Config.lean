import Bies.Json.Parse
import Bies.Options
import Bies.Text.Blank

/-!
# Settings from a file

A configuration is a JSON object with the fields `outfile`, `errfile`, `trace` and `compiler`, each of
which may be missing, or a list of their values in this order.
-/

namespace Bies

def UnboundPolicy.ofJson? (j : Json) : Option UnboundPolicy :=
  match j.choice? with
  | some "implicit_binding" => some .implicitBinding
  | some "reject" => some .reject
  | _ => none

def CalleePolicy.ofJson? (j : Json) : Option CalleePolicy :=
  match j.choice? with
  | some "call_arguments" => some .callArguments
  | some "caller_prefix" => some .callerPrefix
  | _ => none

/-- The compiler options that a value gives: the fields `unbound_identifiers` and `callee_frames`. -/
def Options.ofJson? (j : Json) : Option Options := do
  match ← j.record? ["unbound_identifiers", "callee_frames"] with
  | [unbound, callee] =>
    let unbound ← (unbound.map UnboundPolicy.ofJson?).getD (some .implicitBinding)
    let callee ← (callee.map CalleePolicy.ofJson?).getD (some .callArguments)
    return ⟨unbound, callee⟩
  | _ => none

structure Config where
  outfile : Option String := none
  errfile : Option String := none
  /-- How much to tell: 1 for everything. -/
  trace : Option Nat := none
  compiler : Options := {}
deriving DecidableEq, Repr

namespace Config

/-- A text without the blanks at its ends. -/
def trim (text : List Char) : List Char :=
  ((text.dropWhile isBlank).reverse.dropWhile isBlank).reverse

/-- The level that a text names: digits with an optional plus sign, at most 255. All else is 0. -/
def levelOfText (text : String) : Nat :=
  let digits := match trim text.toList with
    | '+' :: rest => rest
    | rest => rest
  match readDigits? digits with
  | some n => if n ≤ 255 then n else 0
  | none => 0

/-- A text or nothing. -/
def path? : Json → Option (Option String)
  | .null => some none
  | .str (some text) => some (some text)
  | _ => none

/-- A level from 0 to 255, a text that names one, or nothing. -/
def trace? : Json → Option (Option Nat)
  | .null => some none
  | .nat n => if n ≤ 255 then some (some n) else none
  | .str (some text) => some (some (levelOfText text))
  | _ => none

def ofJson? (j : Json) : Option Config := do
  match ← j.record? ["outfile", "errfile", "trace", "compiler"] with
  | [outfile, errfile, trace, compiler] =>
    let outfile ← (outfile.map path?).getD (some none)
    let errfile ← (errfile.map path?).getD (some none)
    let trace ← (trace.map trace?).getD (some none)
    let compiler ← (compiler.map Options.ofJson?).getD (some {})
    return ⟨outfile, errfile, trace, compiler⟩
  | _ => none

/-- The configuration that a file holds. -/
def parse? (text : String) : Option Config := do ofJson? (← Json.parse? text.toList)

end Config
end Bies
