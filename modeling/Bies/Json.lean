/-!
# JSON values

Only what settings need is kept of a value: whole numbers without sign, texts, lists and fields. A text
may spell half of a surrogate pair, and then stands for no text at all. Fields keep their order and may
repeat.
-/

namespace Bies

inductive Json where
  | null
  | bool (b : Bool)
  /-- A whole number, written with digits only. -/
  | nat (n : Nat)
  /-- Any other number. -/
  | number
  /-- A string; none if its escapes spell no text. -/
  | str (text : Option String)
  | arr (items : List Json)
  | obj (fields : List (Option String × Json))

namespace Json

/-- The values of a record's fields. An object gives them by name, other names being ignored, and a list
by position. Neither may give more than one value for a field, nor a list more values than fields. -/
def record? (names : List String) : Json → Option (List (Option Json))
  | .arr items =>
    if items.length ≤ names.length then some ((List.range names.length).map (items[·]?)) else none
  | .obj fields =>
    if fields.all (·.1.isSome) then
      names.mapM fun name =>
        match fields.filter (·.1 = some name) with
        | [] => some none
        | [(_, value)] => some (some value)
        | _ => none
    else none
  | _ => none

/-- The name of a choice: a string, or an object with the name as its only field and no value. -/
def choice? : Json → Option String
  | .str text => text
  | .obj [(name, .null)] => name
  | _ => none

end Json
end Bies
