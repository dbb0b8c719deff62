import TwinForest.Indexed.Classified

/-!
# Unique content

The third pass counts the nodes of every content class over both sides and marks those that are the
only one of their class.
-/

namespace TwinForest

abbrev Tally := Std.HashMap ContentId Nat

namespace Tally

def add (tally : Tally) (id : ContentId) : Tally :=
  tally.insert id (tally.getD id 0 + 1)

def count (tally : Tally) : Forest Classified → Tally
  | .nil => tally
  | .cons n children rest => count (count (tally.add n.contentId) children) rest

def singles (tally : Tally) : Nat :=
  (tally.toList.filter (·.2 == 1)).length

end Tally

structure Marked extends Classified where
  unique : Bool
deriving DecidableEq, Repr

namespace Marked

/-- Marks the nodes that are the only one of their class. Every class has to be counted. -/
def mark (tally : Tally) : Forest Classified → Except Fault (Forest Marked)
  | .nil => .ok .nil
  | .cons n children rest =>
    match tally[n.contentId]? with
    | none => .error (.notCounted n.contentId n.node.key)
    | some count => do
      let children ← mark tally children
      let rest ← mark tally rest
      return .cons { n with unique := count == 1 } children rest

end Marked

end TwinForest
