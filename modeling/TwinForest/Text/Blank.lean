import TwinForest.Text.Ranges

/-!
# Blanks

The Unicode property `White_Space`. It has the non-breaking spaces and the line and paragraph
separators, but not the zero-width spaces.
-/

namespace TwinForest.Text

/-- The code points with the property `White_Space`, in increasing order. -/
def blankRanges : Ranges :=
  [(0x9, 0xd), (0x20, 0x20), (0x85, 0x85), (0xa0, 0xa0), (0x1680, 0x1680), (0x2000, 0x200a),
   (0x2028, 0x2029), (0x202f, 0x202f), (0x205f, 0x205f), (0x3000, 0x3000)]

def isBlank (c : Char) : Bool :=
  blankRanges.holds c

def trimStart (cs : List Char) : List Char :=
  cs.dropWhile isBlank

end TwinForest.Text
