/-
White space: the property `White_Space` of Unicode 17.0.
-/
import Pinpoint.Text.CodeRange

namespace Pinpoint.Text

/-- Code points with the property `White_Space`. -/
def blankRanges : List (Nat × Nat) :=
  [(0x9, 0xD), (0x20, 0x20), (0x85, 0x85), (0xA0, 0xA0), (0x1680, 0x1680), (0x2000, 0x200A),
   (0x2028, 0x2029), (0x202F, 0x202F), (0x205F, 0x205F), (0x3000, 0x3000)]

/-- White space separates tokens and is trimmed from the end of reports. -/
def isBlank (c : Char) : Bool := memRanges blankRanges c.toNat

/-- The text without the white space at its end. -/
def trimEnd (s : String) : String :=
  String.ofList (s.toList.reverse.dropWhile isBlank).reverse

end Pinpoint.Text
