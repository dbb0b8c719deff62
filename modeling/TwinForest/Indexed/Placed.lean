import TwinForest.Node

/-!
# Numbered nodes

The first pass over a forest gives every node its number in pre-order, its parent, the number of its
ancestors, and the number of siblings that come after it or after one of its ancestors.
-/

namespace TwinForest

structure Placed where
  node : Node
  id : NodeId
  parent : Option Key
  ancestors : Nat
  /-- How many nodes are later siblings of this one or of one of its ancestors. -/
  after : Nat
deriving DecidableEq, Repr

namespace Placed

/-- Numbers the nodes of a forest in pre-order from `next` on, and gives the number that comes next.
The roots have the given parent and ancestors, and together with the nodes that come after their
parent there are `waiting` of them. -/
def number (parent : Option Key) (ancestors waiting : Nat) (next : NodeId) :
    Forest Node → Forest Placed × NodeId
  | .nil => (.nil, next)
  | .cons node children rest =>
    let after := waiting - 1
    let below := number (some node.key) (ancestors + 1) (after + children.width) (next + 1) children
    let beside := number parent ancestors after below.2 rest
    (.cons { node, id := next, parent, ancestors, after } below.1 beside.1, beside.2)

def numberSide (next : NodeId) (f : Forest Node) : Forest Placed × NodeId :=
  number none 0 f.width next f

end Placed

end TwinForest
