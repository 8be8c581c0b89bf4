import Bies.FunctionTable

/-!
# Frames

Every function has one frame for all its variables. Slots are given out in the order in which names are
first bound, the parameters first. A function sees its own frame and, further out, those of the
functions around it.
-/

namespace Bies

/-- A named slot, with the node whose value it was last given, if known. -/
structure Binding where
  name : String
  value : Option Node

abbrev Frame := List Binding

namespace Frame

def ofParams (params : List String) : Frame := params.map (⟨·, none⟩)

/-- The first slot with the name. -/
def slot? (frame : Frame) (name : String) : Option Nat := frame.findIdx? (·.name = name)

/-- Binds the name in its slot, or in a new one if it has none, and gives the slot. -/
def bind (frame : Frame) (name : String) (value : Option Node) : Nat × Frame :=
  match frame.slot? name with
  | some slot => (slot, frame.modify slot fun b => { b with value })
  | none => (frame.length, frame ++ [⟨name, value⟩])

/-- The value that the slot is known to hold. -/
def value? (frame : Frame) (slot : Nat) : Option Node := frame[slot]?.bind (·.value)

/-- Gives values to the first slots. -/
def seed : Frame → List (Option Node) → Frame
  | b :: rest, value :: values => { b with value } :: seed rest values
  | frame, _ => frame

end Frame

/-- Where a name was found. -/
structure Resolved where
  /-- How many functions further out. -/
  frame : Nat
  slot : Nat
  value : Option Node

/-- The frames of all functions, by number. -/
structure Frames where
  frames : List Frame

namespace Frames

def ofTable (table : FunctionTable) : Frames :=
  ⟨table.records.map fun r => .ofParams r.params⟩

def get? (fs : Frames) (f : FunctionId) : Option Frame := fs.frames[f]?

/-- Binds a name in the frame of the function `f` and gives the slot. -/
def bind (fs : Frames) (f : FunctionId) (name : String) (value : Option Node) : Nat × Frames :=
  match fs.get? f with
  | some frame =>
    let (slot, frame) := frame.bind name value
    (slot, ⟨fs.frames.set f frame⟩)
  | none => (0, fs)

/-- Finds a name in the frames of the functions of a chain, the first of which is the nearest. -/
def resolve? (fs : Frames) (name : String) : List FunctionId → Option Resolved
  | [] => none
  | f :: outer =>
    match (fs.get? f).bind fun frame => (frame.slot? name).map fun slot => (frame, slot) with
    | some (frame, slot) => some ⟨0, slot, frame.value? slot⟩
    | none => (resolve? fs name outer).map fun r => { r with frame := r.frame + 1 }

/-- Gives values to the first slots of the function `f`. -/
def seed (fs : Frames) (f : FunctionId) (values : List (Option Node)) : Frames :=
  ⟨fs.frames.modify f (Frame.seed · values)⟩

end Frames

namespace FunctionTable

/-- The function and those around it, at most `limit` of them. -/
def chainFrom (t : FunctionTable) : (limit : Nat) → FunctionId → List FunctionId
  | 0, _ => []
  | limit + 1, f =>
    f :: match (t.byId? f).bind (·.parent) with
      | some parent => chainFrom t limit parent
      | none => []

/-- The function and those around it, outwards. No chain without repetition is longer. -/
def chain (t : FunctionTable) (f : FunctionId) : List FunctionId := t.chainFrom (t.size + 1) f

end FunctionTable
end Bies
