import Bies.Assembly.OfTable
import Bies.FunctionTable.OfProgram
import Bies.Tree.Parse

/-!
# Compiling

From a source text, or from a syntax tree for it, to the assembly.
-/

namespace Bies

/-- The assembly of the program that a syntax tree of the source stands for. -/
def compileTree (options : Options) (source : List Char) (tree : Tree) : Outcome Assembly :=
  (FunctionTable.ofProgram (.ofTree source tree)).andThen fun table => Assembly.ofTable table options

/-- The assembly of a source text. -/
def compile (options : Options) (source : List Char) : Outcome Assembly :=
  (Outcome.silent ((Tree.parse source).mapError .parse)).andThen (compileTree options source)

end Bies
