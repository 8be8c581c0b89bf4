import Bies.Span
import Bies.Text.Quoted

/-!
# Events

What the compiler tells about its work, in the order in which it happens. Warnings and errors are
always shown, the rest only on request.
-/

namespace Bies

/-- The number of a function in its table, which is taken to have fewer than 2³² functions. -/
abbrev FunctionId := Nat

def renderFunctionId (f : FunctionId) : String := s!"${f}"

inductive Level where
  | debug
  | info
  | warn
  | error
deriving DecidableEq, Repr

/-- Right-aligned to five columns. -/
def Level.render : Level → String
  | .debug => "DEBUG"
  | .info => " INFO"
  | .warn => " WARN"
  | .error => "ERROR"

/-- Shown also when nobody asked for more than the necessary. -/
def Level.isUrgent : Level → Bool
  | .warn | .error => true
  | .debug | .info => false

inductive Event where
  | declaredFunction (function : FunctionId) (name : String)
  | liftedLambda (function : FunctionId) (name : String)
  | loadedTable (functions : Nat)
  | loweringFunction (function : FunctionId) (name : String)
  /-- A name that is bound nowhere, used at `span`, gets the slot `slot` of its function. -/
  | boundImplicitly (name : String) (slot : Nat) (span : Span)
  | skippedStatement (function : FunctionId) (description : String) (span : Span)
  | compiling (file out : String)
  | done (functions skipped : Nat)
  | failed (message errfile : String)
deriving DecidableEq, Repr

namespace Event

def level : Event → Level
  | .declaredFunction .. | .liftedLambda .. | .loadedTable .. | .loweringFunction ..
  | .boundImplicitly .. => .debug
  | .compiling .. | .done .. => .info
  | .skippedStatement .. => .warn
  | .failed .. => .error

def message : Event → String
  | .declaredFunction f name => s!"declared function function={renderFunctionId f} name={quoted name}"
  | .liftedLambda f name => s!"lifted lambda function={renderFunctionId f} name={quoted name}"
  | .loadedTable n => s!"loaded function table functions={n}"
  | .loweringFunction f name => s!"transpiling function function={renderFunctionId f} name={quoted name}"
  | .boundImplicitly name slot _ => s!"implicit binding name={quoted name} slot={slot}"
  | .skippedStatement f description span =>
    s!"statement has no lowering, skipped function={renderFunctionId f} node={description} span={span.render}"
  | .compiling file out => s!"compiling file={file} out={out}"
  | .done functions skipped => s!"done functions={functions} skipped={skipped}"
  | .failed message errfile => s!"{message} errfile={errfile}"

def render (e : Event) : String := s!"{e.level.render} {e.message}"

end Event
end Bies
