import Bies.Node

/-!
# Function tables

The functions of a program, each with the nodes of its body in order. The number of a function is its
position. Function 0 is `main` and holds the statements outside all functions.
-/

namespace Bies

/-- The name of the function for the top-level statements. -/
def mainName : String := "main"

structure FunctionRecord where
  id : FunctionId
  name : String
  params : List String
  /-- The function in which it was first declared; none for `main`. -/
  parent : Option FunctionId
  sequence : List Node

def FunctionRecord.arity (r : FunctionRecord) : Nat := r.params.length

structure FunctionTable where
  records : List FunctionRecord

namespace FunctionTable

/-- The table of a program without functions. -/
def initial : FunctionTable := ⟨[⟨0, mainName, [], none, []⟩]⟩

def size (t : FunctionTable) : Nat := t.records.length

def get? (t : FunctionTable) (name : String) : Option FunctionRecord :=
  t.records.find? (·.name = name)

def byId? (t : FunctionTable) (f : FunctionId) : Option FunctionRecord := t.records[f]?

/-- Declares a function and gives its number. A name that is there already keeps its number, parent
and body and takes the new parameters. -/
def declare (t : FunctionTable) (name : String) (params : List String) (parent : FunctionId) :
    FunctionId × FunctionTable :=
  match t.get? name with
  | some r => (r.id, ⟨t.records.map fun r => if r.name = name then { r with params } else r⟩)
  | none => (t.size, ⟨t.records ++ [⟨t.size, name, params, some parent, []⟩]⟩)

/-- Puts a node at the end of a function's body. -/
def append (t : FunctionTable) (f : FunctionId) (n : Node) : FunctionTable :=
  ⟨t.records.modify f fun r => { r with sequence := r.sequence ++ [n] }⟩

/-- Empties a function's body. -/
def clear (t : FunctionTable) (f : FunctionId) : FunctionTable :=
  ⟨t.records.modify f fun r => { r with sequence := [] }⟩

end FunctionTable
end Bies
