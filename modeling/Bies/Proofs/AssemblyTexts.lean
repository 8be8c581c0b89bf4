import Bies.Assembly
import Mathlib.Data.List.Basic

/-!
# Texts of an assembly

The text of an assembly as a list of characters: an instruction is an opcode with at most one operand, and the items of
a list stand between commas.
-/

namespace Bies

/-! ## Constants -/

namespace Literal

def moreItems : List Literal → List Char
  | [] => []
  | x :: rest => ',' :: ' ' :: (renderAll (x :: rest)).toList

theorem toList_render_list (items : List Literal) :
    (list items).render.toList = '[' :: (renderAll items).toList ++ [']'] := by
  simp [render, toString]

theorem toList_renderAll_cons (x : Literal) : ∀ rest : List Literal,
    (renderAll (x :: rest)).toList = x.render.toList ++ moreItems rest
  | [] => by simp [renderAll, moreItems]
  | y :: rest => by simp [renderAll, moreItems, toString]

end Literal

/-! ## Instructions -/

inductive Operand where
  | none
  | literal (x : Literal)
  | function (f : FunctionId)
  | address (frame slot : Nat)
  | offset (n : Int)
  | args (n : Nat)

def Operand.text : Operand → List Char
  | .none => []
  | .literal x => ' ' :: x.render.toList
  | .function f => ' ' :: '$' :: Nat.toDigits 10 f
  | .address frame slot => ' ' :: Nat.toDigits 10 frame ++ ' ' :: Nat.toDigits 10 slot
  | .offset n => ' ' :: n.repr.toList
  | .args n => ' ' :: Nat.toDigits 10 n

namespace Instruction

def operand : Instruction → Operand
  | .ldv x => .literal x
  | .ldf f => .function f
  | .bld frame slot | .bst frame slot => .address frame slot
  | .bf offset | .br offset => .offset offset
  | .app n => .args n
  | _ => .none

def opcode : Instruction → String
  | .ldv _ => "LDV"
  | .ldf _ => "LDF"
  | .bld .. => "BLD"
  | .bst .. => "BST"
  | .bf _ => "BF"
  | .br _ => "BR"
  | .app _ => "APP"
  | i => i.render

theorem toList_render (i : Instruction) : i.render.toList = i.opcode.toList ++ i.operand.text := by
  cases i <;> simp [render, opcode, operand, Operand.text, renderFunctionId, toString]

theorem isUpper_of_mem_opcode {i : Instruction} {c : Char} (h : c ∈ i.opcode.toList) : c.isUpper = true := by
  have hall : i.opcode.toList.all Char.isUpper = true := by cases i <;> simp [opcode, render]
  exact List.all_eq_true.mp hall c h

end Instruction

/-! ## Files -/

def fileText (lines : List String) : List Char := lines.flatMap fun l => l.toList ++ ['\n']

@[simp] theorem fileText_nil : fileText [] = [] := rfl

@[simp] theorem fileText_cons (l : String) (ls : List String) :
    fileText (l :: ls) = l.toList ++ '\n' :: fileText ls := by
  simp [fileText]

@[simp] theorem fileText_append (ls ms : List String) : fileText (ls ++ ms) = fileText ls ++ fileText ms :=
  List.flatMap_append

theorem fileText_cons_append (l : String) (ls : List String) (rest : List Char) :
    fileText (l :: ls) ++ rest = l.toList ++ '\n' :: (fileText ls ++ rest) := by
  simp

theorem FunctionCode.fileText_lines_append (f : FunctionCode) (rest : List Char) : fileText f.lines ++ rest =
    "$FUN $".toList ++ (Nat.toDigits 10 f.id ++ ' ' :: ("args:".toList ++ (Nat.toDigits 10 f.arity ++ ' ' ::
      ("parent:$".toList ++ (Nat.toDigits 10 f.parent ++ '\n' :: (fileText (f.code.map Instruction.render) ++ '$' ::
        ("END\n".toList ++ rest))))))) := by
  simp [lines, renderFunctionId, toString]

theorem Assembly.toList_render (a : Assembly) : a.render.toList = fileText a.lines := by
  simp [render, fileText, List.flatMap_map]

end Bies
