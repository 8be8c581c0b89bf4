import Bies.Event
import Bies.Number

/-!
# Instructions

The stack machine that programs are compiled for, and the text of its instructions.
-/

namespace Bies

/-- A constant. -/
inductive Literal where
  | int (n : Int64)
  | float (x : Float)
  /-- A string, its quotes included. -/
  | str (text : String)
  | list (items : List Literal)

mutual

def Literal.render : Literal → String
  | .int n => renderInt n
  | .float x => renderFloat x
  | .str text => text
  | .list items => s!"[{Literal.renderAll items}]"

def Literal.renderAll : List Literal → String
  | [] => ""
  | [x] => x.render
  | x :: rest => s!"{x.render}, {Literal.renderAll rest}"

end

inductive Instruction where
  /-- Push a constant. -/
  | ldv (literal : Literal)
  /-- Push a function. -/
  | ldf (function : FunctionId)
  /-- Push what the slot holds, in the frame that many functions out. -/
  | bld (frame slot : Nat)
  /-- Pop into a slot. -/
  | bst (frame slot : Nat)
  | add
  | sub
  | mul
  | div
  | pow
  /-- Join two texts. -/
  | cat
  | eq
  | gt
  | gte
  | lt
  | lte
  /-- Pop, and go that many instructions on if it was false. -/
  | bf (offset : Int)
  /-- Go that many instructions on. -/
  | br (offset : Int)
  /-- Call a function with that many arguments. -/
  | app (args : Nat)
  | ret
  /-- Pop and print. -/
  | prn
  /-- Push a line of input. -/
  | inp
  /-- Replace a list or text by its length. -/
  | len
  /-- Replace a list and an index by the item. -/
  | ltk
  | hlt

/-- Code for the machine. Jumps are relative, so code runs the same wherever it stands. -/
abbrev Code := List Instruction

namespace Instruction

def arithmetic? : String → Option Instruction
  | "+" => some .add
  | "-" => some .sub
  | "*" => some .mul
  | "/" => some .div
  | "**" => some .pow
  | _ => none

def comparison? : String → Option Instruction
  | "==" => some .eq
  | ">" => some .gt
  | ">=" => some .gte
  | "<" => some .lt
  | "<=" => some .lte
  | _ => none

def isAdd : Instruction → Bool
  | .add => true
  | _ => false

def isRet : Instruction → Bool
  | .ret => true
  | _ => false

def offset? : Instruction → Option Int
  | .bf offset | .br offset => some offset
  | _ => none

def render : Instruction → String
  | .ldv literal => s!"LDV {literal.render}"
  | .ldf f => s!"LDF {renderFunctionId f}"
  | .bld frame slot => s!"BLD {frame} {slot}"
  | .bst frame slot => s!"BST {frame} {slot}"
  | .add => "ADD"
  | .sub => "SUB"
  | .mul => "MUL"
  | .div => "DIV"
  | .pow => "POW"
  | .cat => "CAT"
  | .eq => "EQ"
  | .gt => "GT"
  | .gte => "GTE"
  | .lt => "LT"
  | .lte => "LTE"
  | .bf offset => s!"BF {offset}"
  | .br offset => s!"BR {offset}"
  | .app args => s!"APP {args}"
  | .ret => "RET"
  | .prn => "PRN"
  | .inp => "INP"
  | .len => "LEN"
  | .ltk => "LTK"
  | .hlt => "HLT"

end Instruction

/-- The last instruction returns. -/
def Code.endsInRet (code : Code) : Bool := code.getLast?.any Instruction.isRet

end Bies
