import Bies.Instruction
import Bies.Node

/-!
# Assembly

A compiled program: the code of each function, and the statements for which there was none.
-/

namespace Bies

structure FunctionCode where
  id : FunctionId
  name : String
  arity : Nat
  /-- The function around it; `main` counts as its own. -/
  parent : FunctionId
  code : Code

/-- A statement that does nothing and was left out. -/
structure Skipped where
  function : FunctionId
  node : NodeId
  description : String
  span : Span

structure Assembly where
  functions : List FunctionCode
  skipped : List Skipped

def FunctionCode.lines (f : FunctionCode) : List String :=
  s!"$FUN {renderFunctionId f.id} args:{f.arity} parent:{renderFunctionId f.parent}"
    :: f.code.map Instruction.render ++ ["$END"]

namespace Assembly

def lines (a : Assembly) : List String := a.functions.flatMap FunctionCode.lines

/-- The text of an assembly file. -/
def render (a : Assembly) : String := String.join (a.lines.map (· ++ "\n"))

end Assembly
end Bies
