import Bies.Proofs.ParsedPrograms
import Bies.Proofs.Sharing

/-!
# Names of functions in a parsed program

A name is a token of letters, digits and underscores, so no function of a parsed program has a name
with `#`.
-/

namespace Bies

def Bounds.plainNames : Bounds := { function := fun name => '#' ∉ name.toList }

mutual

theorem Expr.plainNames_of_within : ∀ e : Expr, e.Within .plainNames → e.PlainNames
  | .arithmetic _ left _ right, h | .comparison _ left _ right, h =>
    ⟨left.plainNames_of_within h.2.1, right.plainNames_of_within h.2.2⟩
  | .call _ _ es, h | .list _ es, h => Expr.allPlainNames_of_within es h
  | .access _ _ index, h => index.plainNames_of_within h
  | .lambda _ _ body, h => body.plainNames_of_within h
  | .int .., _ | .float .., _ | .str .., _ | .ident .., _ | .malformed .., _ => trivial

theorem Expr.allPlainNames_of_within : ∀ es : List Expr, Expr.AllWithin .plainNames es → Expr.AllPlainNames es
  | [], _ => trivial
  | e :: rest, h => ⟨e.plainNames_of_within h.1, Expr.allPlainNames_of_within rest h.2⟩

theorem Body.plainNames_of_within : ∀ body : Body, body.Within .plainNames → body.PlainNames
  | .block _ statements, h => Stmt.allPlainNames_of_within statements h
  | .value _ value, h => value.plainNames_of_within h

theorem Stmt.plainNames_of_within : ∀ stmt : Stmt, stmt.Within .plainNames → stmt.PlainNames
  | .decl _ _ _ value, h | .ret _ value, h | .expr value, h => value.plainNames_of_within h
  | .lambdaDecl _ _ _ _ body, h | .funDecl _ _ _ body, h => ⟨h.1, body.plainNames_of_within h.2⟩
  | .letIn _ decls _ body, h =>
    ⟨Stmt.allPlainNames_of_within decls h.1, Stmt.allPlainNames_of_within body h.2⟩
  | .ifThen _ test _ body, h => ⟨test.plainNames_of_within h.1, Stmt.allPlainNames_of_within body h.2⟩
  | .ifElse _ test _ body _ other, h => ⟨test.plainNames_of_within h.1,
      Stmt.allPlainNames_of_within body h.2.1, Stmt.allPlainNames_of_within other h.2.2⟩
  | .ifElseIf _ test _ body link, h => ⟨test.plainNames_of_within h.1,
      Stmt.allPlainNames_of_within body h.2.1, link.plainNames_of_within h.2.2.2⟩
  | .block _ statements, h => Stmt.allPlainNames_of_within statements h
  | .print _ args, h => Expr.allPlainNames_of_within args h
  | .malformed .., _ => trivial

theorem Stmt.allPlainNames_of_within : ∀ statements : List Stmt, Stmt.AllWithin .plainNames statements →
    Stmt.AllPlainNames statements
  | [], _ => trivial
  | stmt :: rest, h => ⟨stmt.plainNames_of_within h.1, Stmt.allPlainNames_of_within rest h.2⟩

end

theorem Program.plainNames_of_parse {source : List Char} {tree : Tree} (hsize : byteLength source < 2 ^ 32)
    (h : Tree.parse source = .ok tree) : Stmt.AllPlainNames (ofTree source tree) := by
  refine Stmt.allPlainNames_of_within _ (within_of_parse h trivial trivial fun t ht => ?_)
  refine ⟨fun hkind hmem => ?_, fun _ _ _ => trivial, fun _ _ _ => trivial⟩
  rw [Token.text_of_mem_scan hsize ht] at hmem
  have := Token.isIdentifierPart_of_mem_scanFrom 0 source t ht hkind '#' hmem
  exact absurd this (by decide)

end Bies
