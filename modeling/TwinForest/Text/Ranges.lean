/-!
# Character classes as ranges

A class of characters is given by the ranges of code points that it holds.
-/

namespace TwinForest.Text

/-- Closed ranges of code points, in ascending order. -/
abbrev Ranges := List (Nat × Nat)

/-- Whether a range of the list holds the character. Ranges that start after it are not looked at. -/
def Ranges.holds (c : Char) : Ranges → Bool
  | [] => false
  | (first, last) :: ranges => first ≤ c.toNat && (c.toNat ≤ last || holds c ranges)

end TwinForest.Text
