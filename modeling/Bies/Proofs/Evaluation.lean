import Bies.FunctionTable
import Bies.Program

/-!
# Evaluating a program

What a program with one variable for each name puts out, statement by statement, and the same for the
nodes it is loaded as. Programs are numeric: names, numbers, operators, declarations, blocks,
conditions and prints.
-/

namespace Bies

/-- Values, and what the operators do with them. Of arithmetic it is known only that it agrees with what
is done at compile time. -/
structure Arithmetic (V : Type) where
  ofNumber : Number → V
  apply : (op : String) → (left right : V) → V
  isFalse : V → Bool
  /-- What a variable holds that has not been set. -/
  unset : V
  apply_of_combine? : ∀ {a b n : Number} {op : String}, a.combine? op b = some n →
    apply op (ofNumber a) (ofNumber b) = ofNumber n

theorem Number.exists_of_combineFloat? {a b : Float} {op : String} {n : Number}
    (h : combineFloat? a op b = some n) : ∃ x, n = .float x := by
  have finite : ∀ x : Float, (if x.isFinite then some (.float x) else none) = some n → ∃ x, n = .float x := by
    intro x hx
    split at hx
    · exact ⟨x, (Option.some.inj hx).symm⟩
    · cases hx
  unfold combineFloat? at h
  split at h
  iterate 3 exact finite _ h
  · split at h
    · cases h
    · exact finite _ h
  · exact finite _ h
  · cases h

namespace Arithmetic

def wholeOf? : Number → Option Int64
  | .int n => some n
  | .float _ => none

def compareWhole? (a : Int64) (op : String) (b : Int64) : Option Int64 :=
  match op with
  | "==" => some (if a = b then 1 else 0)
  | ">" => some (if b < a then 1 else 0)
  | ">=" => some (if b ≤ a then 1 else 0)
  | "<" => some (if a < b then 1 else 0)
  | "<=" => some (if a ≤ b then 1 else 0)
  | _ => none

def whole : Arithmetic (Option Int64) where
  ofNumber := wholeOf?
  apply
    | op, some a, some b =>
      match Number.combineInt? a op b with
      | some n => wholeOf? n
      | none => compareWhole? a op b
    | _, _, _ => none
  isFalse v := v = some 0
  unset := none
  apply_of_combine? {a b n op} h := by
    cases a with
    | int a =>
      cases b with
      | int b =>
        change Number.combineInt? a op b = some n at h
        simp [wholeOf?, h]
      | float y =>
        obtain ⟨x, rfl⟩ := Number.exists_of_combineFloat? h
        rfl
    | float x =>
      obtain ⟨x, rfl⟩ := Number.exists_of_combineFloat? h
      cases b <;> rfl

end Arithmetic

structure Store (V : Type) where
  env : String → V
  out : List V

namespace Store

variable {V : Type}

def set (s : Store V) (name : String) (v : V) : Store V :=
  { s with env := fun n => if n = name then v else s.env n }

def print (s : Store V) (v : V) : Store V := { s with out := s.out ++ [v] }

def initial (A : Arithmetic V) : Store V := ⟨fun _ => A.unset, []⟩

end Store

section
variable {V : Type} (A : Arithmetic V)

/-! ## Programs -/

def Expr.isNumeric : Expr → Bool
  | .int .. | .float .. => true
  | .ident _ name => name ≠ mainName
  | .arithmetic _ left _ right | .comparison _ left _ right => left.isNumeric && right.isNumeric
  | _ => false

def Expr.eval (env : String → V) : Expr → V
  | .int _ n => A.ofNumber (.int n)
  | .float _ x => A.ofNumber (.float x)
  | .ident _ name => env name
  | .arithmetic _ left op right | .comparison _ left op right =>
    A.apply op (left.eval env) (right.eval env)
  | _ => A.unset

mutual

/-- Made of declarations, let-ins, blocks, conditions, prints of one value and expressions, all numeric. -/
def Stmt.isNumeric : Stmt → Bool
  | .decl _ _ _ value => value.isNumeric
  | .letIn _ decls _ body => Stmt.allNumeric decls && Stmt.allNumeric body
  | .ifThen _ test _ body => test.isNumeric && Stmt.allNumeric body
  | .ifElse _ test _ body _ other => test.isNumeric && Stmt.allNumeric body && Stmt.allNumeric other
  | .ifElseIf _ test _ body link => test.isNumeric && Stmt.allNumeric body && link.isNumeric
  | .block _ statements => Stmt.allNumeric statements
  | .print _ [value] => value.isNumeric
  | .expr value => value.isNumeric
  | _ => false

def Stmt.allNumeric : List Stmt → Bool
  | [] => true
  | s :: rest => s.isNumeric && Stmt.allNumeric rest

end

mutual

def Stmt.exec : Stmt → Store V → Store V
  | .decl _ _ name value, σ => σ.set name (value.eval A σ.env)
  | .letIn _ decls _ body, σ => Stmt.execAll body (Stmt.execAll decls σ)
  | .ifThen _ test _ body, σ => if A.isFalse (test.eval A σ.env) then σ else Stmt.execAll body σ
  | .ifElse _ test _ body _ other, σ =>
    if A.isFalse (test.eval A σ.env) then Stmt.execAll other σ else Stmt.execAll body σ
  | .ifElseIf _ test _ body link, σ =>
    if A.isFalse (test.eval A σ.env) then link.exec σ else Stmt.execAll body σ
  | .block _ statements, σ => Stmt.execAll statements σ
  | .print _ [value], σ => σ.print (value.eval A σ.env)
  | _, σ => σ

def Stmt.execAll : List Stmt → Store V → Store V
  | [], σ => σ
  | s :: rest, σ => Stmt.execAll rest (s.exec σ)

end

def Program.outputs (program : Program) : List V := (Stmt.execAll A program (.initial A)).out

/-! ## Nodes -/

namespace Node

def isNumeric : Node → Bool
  | .int .. | .float .. => true
  | .ident _ name => name ≠ mainName
  | .binary _ left _ right | .comparison _ left _ right => left.isNumeric && right.isNumeric
  | _ => false

def eval (env : String → V) : Node → V
  | .int _ n => A.ofNumber (.int n)
  | .float _ x => A.ofNumber (.float x)
  | .ident _ name => env name
  | .binary _ left op right | .comparison _ left op right => A.apply op (left.eval env) (right.eval env)
  | _ => A.unset

mutual

def isStatement : Node → Bool
  | .decl _ _ _ value => value.isNumeric
  | .letIn _ decls body => areStatements decls && body.isStatement
  | .ifThen _ test body => test.isNumeric && body.isStatement
  | .ifElse _ test body other => test.isNumeric && body.isStatement && other.isStatement
  | .ifElseIf _ test body link => test.isNumeric && body.isStatement && link.isStatement
  | .block _ statements => areStatements statements
  | .print _ [value] => value.isNumeric
  | .int .. | .float .. | .ident .. => true
  | .binary _ left _ right | .comparison _ left _ right => left.isNumeric && right.isNumeric
  | _ => false

def areStatements : List Node → Bool
  | [] => true
  | n :: rest => n.isStatement && areStatements rest

end

mutual

def exec : Node → Store V → Store V
  | .decl _ _ name value, σ => σ.set name (value.eval A σ.env)
  | .letIn _ decls body, σ => body.exec (execAll decls σ)
  | .ifThen _ test body, σ => if A.isFalse (test.eval A σ.env) then σ else body.exec σ
  | .ifElse _ test body other, σ => if A.isFalse (test.eval A σ.env) then other.exec σ else body.exec σ
  | .ifElseIf _ test body link, σ => if A.isFalse (test.eval A σ.env) then link.exec σ else body.exec σ
  | .block _ statements, σ => execAll statements σ
  | .print _ [value], σ => σ.print (value.eval A σ.env)
  | _, σ => σ

def execAll : List Node → Store V → Store V
  | [], σ => σ
  | n :: rest, σ => execAll rest (n.exec σ)

end

end Node

end
end Bies
