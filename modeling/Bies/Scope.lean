import Bies.Node

/-!
# Scopes

Which names are known to hold which values while a program is read. Only the declarations of a let-in
are known to hold for a while: all variables of a function with one name share one slot, so any other
declaration of the name may change it. A declaration therefore forgets what the enclosing scopes of
the same function know of its name.
-/

namespace Bies

inductive ScopeKind where
  /-- Declarations directly in a let-in are known with their values. -/
  | letIn
  /-- Any other block. -/
  | block
  /-- The body of a function. -/
  | function
deriving DecidableEq, Repr

structure Scope where
  kind : ScopeKind
  /-- The names declared here, with their values if known. The latest entry of a name counts. -/
  names : List (String × Option Node)

namespace Scope

def get? (s : Scope) (name : String) : Option (Option Node) := s.names.lookup name

def insert (s : Scope) (name : String) (value : Option Node) : Scope :=
  { s with names := (name, value) :: s.names }

/-- Keeps the name, if it is declared here, but not its value. -/
def forget (s : Scope) (name : String) : Scope :=
  if (s.get? name).isSome then s.insert name none else s

end Scope

/-- The open scopes, innermost first. -/
structure ScopeStack where
  scopes : List Scope

namespace ScopeStack

def empty : ScopeStack := ⟨[]⟩

def push (s : ScopeStack) (kind : ScopeKind) (names : List String) : ScopeStack :=
  ⟨⟨kind, names.map (·, none)⟩ :: s.scopes⟩

def pushLetIn (s : ScopeStack) : ScopeStack := s.push .letIn []

def pushBlock (s : ScopeStack) : ScopeStack := s.push .block []

/-- Opens the body of a function, whose parameters hide what is known outside. -/
def pushFunction (s : ScopeStack) (params : List String) : ScopeStack := s.push .function params

def pop (s : ScopeStack) : ScopeStack := ⟨s.scopes.tail⟩

/-- Makes the scopes around a declaration forget its name, up to the function it stands in, which then
has the name as its own. -/
def forget (name : String) : List Scope → List Scope
  | [] => []
  | s :: rest =>
    if s.kind = .function then s.insert name none :: rest else s.forget name :: forget name rest

/-- A declaration in the innermost scope. Outside all scopes nothing is known and nothing forgotten. -/
def declare (s : ScopeStack) (name : String) (value : Node) : ScopeStack :=
  match s.scopes with
  | [] => s
  | inner :: outer =>
    match inner.kind with
    | .letIn => ⟨inner.insert name (some value) :: forget name outer⟩
    | .block => ⟨inner.insert name none :: forget name outer⟩
    | .function => ⟨inner.insert name none :: outer⟩

/-- The value of a name, if the innermost scope that has the name knows it. -/
def lookup (s : ScopeStack) (name : String) : Option Node :=
  (s.scopes.findSome? (·.get? name)).join

end ScopeStack
end Bies
