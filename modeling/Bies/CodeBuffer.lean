import Bies.CompileError
import Bies.Instruction

/-!
# Code with labels

A buffer collects instructions. A label may be put behind jumps to it, and may be put again: the last
place counts. A jump is put in with the offset 0 and noted as a patch; once all labels are in place,
`finish` gives every jump its offset, which counts from the jump itself.
-/

namespace Bies

/-- A label is a number that its buffer has given out. -/
abbrev Label := Nat

structure CodeBuffer where
  code : Code
  /-- For each label the number of instructions before its place. -/
  places : List (Option Nat)
  /-- The number of each jump, and the label it goes to. -/
  patches : List (Nat × Label)

namespace CodeBuffer

def empty : CodeBuffer := ⟨[], [], []⟩

def push (b : CodeBuffer) (i : Instruction) : CodeBuffer :=
  { b with code := b.code ++ [i] }

/-- Appends finished code, jumps and all. -/
def append (b : CodeBuffer) (code : Code) : CodeBuffer :=
  { b with code := b.code ++ code }

def last? (b : CodeBuffer) : Option Instruction := b.code.getLast?

def newLabel (b : CodeBuffer) : Label × CodeBuffer :=
  (b.places.length, { b with places := b.places ++ [none] })

/-- Puts the label before what comes next. -/
def place (b : CodeBuffer) (label : Label) : CodeBuffer :=
  { b with places := b.places.set label (some b.code.length) }

def jump (b : CodeBuffer) (label : Label) : CodeBuffer :=
  { b with code := b.code ++ [.br 0], patches := b.patches ++ [(b.code.length, label)] }

def jumpIfFalse (b : CodeBuffer) (label : Label) : CodeBuffer :=
  { b with code := b.code ++ [.bf 0], patches := b.patches ++ [(b.code.length, label)] }

/-- Sends the jump with the number `index` to the label. -/
def patch (places : List (Option Nat)) (code : Code) (index : Nat) (label : Label) : Except InternalError Code :=
  match places[label]? with
  | some (some target) =>
    match code[index]? with
    | some (.bf _) => .ok (code.set index (.bf ((target : Int) - index)))
    | some (.br _) => .ok (code.set index (.br ((target : Int) - index)))
    | some other => .error (.patchedNonJump other.render)
    | none => .error (.patchedNonJump "")
  | _ => .error (.unplacedLabel label)

def finish (b : CodeBuffer) : Except InternalError Code :=
  b.patches.foldlM (fun code (index, label) => patch b.places code index label) b.code

end CodeBuffer
end Bies
