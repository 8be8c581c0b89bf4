import Bies.Text.CodeRange

/-!
# White space

The characters with the Unicode property White_Space: they separate tokens and are otherwise ignored.
-/

namespace Bies

/-- The White_Space characters, in increasing order. -/
def blankRanges : List CodeRange := [
    (0x9, 0xD), (0x20, 0x20), (0x85, 0x85), (0xA0, 0xA0), (0x1680, 0x1680), (0x2000, 0x200A),
    (0x2028, 0x2029), (0x202F, 0x202F), (0x205F, 0x205F), (0x3000, 0x3000)]

/-- The character is white space. -/
def isBlank (c : Char) : Bool := CodeRange.covers blankRanges c

end Bies
