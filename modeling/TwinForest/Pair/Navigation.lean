import TwinForest.Pair.Basic

/-!
# Reading an indexed pair

Nodes are looked up by key, links lead from node to node, and a walk visits a side in pre-order. A dump
shows both sides, a node on each line.
-/

namespace TwinForest.Pair

def node (p : Pair) (key : Key) : Except Fault (Tree Linked) := do
  -- A key from elsewhere is told from that of a node which no root reaches.
  let _ ← p.nodes.node key
  match p.table.get? key with
  | some (some t) => return t
  | _ => throw (.notReached key)

def follow (p : Pair) : Option Key → Except Fault (Option (Tree Linked))
  | none => .ok none
  | some key => some <$> p.node key

def parent (p : Pair) (n : Linked) : Except Fault (Option (Tree Linked)) :=
  p.follow n.parent

def previousSibling (p : Pair) (n : Linked) : Except Fault (Option (Tree Linked)) :=
  p.follow n.previousSibling

def nextSibling (p : Pair) (n : Linked) : Except Fault (Option (Tree Linked)) :=
  p.follow n.nextSibling

def prev (p : Pair) (n : Linked) : Except Fault (Option (Tree Linked)) :=
  p.follow n.prev

/-- The side of a node, told by its number. -/
def side (p : Pair) (n : Linked) : Side :=
  if n.id ≤ p.lhsSize then .lhs else .rhs

def roots (p : Pair) (side : Side) : List (Tree Linked) :=
  (p.forest side).trees

def walk (p : Pair) (side : Side) : List (Tree Linked) :=
  (p.forest side).walk

def commentPositions (p : Pair) (side : Side) : Except Fault (List Span) :=
  p.nodes.commentPositions ((p.forest side).roots.map (·.node.key))

/-- The line of a node in a dump, indented by its depth. -/
def dumpLine (n : Linked) : String :=
  "".pushn ' ' (2 * (n.ancestors + 1)) ++ n.display ++ "\n"

def dumpSide (p : Pair) (side : Side) : String :=
  side.name ++ "\n" ++ String.join ((p.walk side).map fun t => dumpLine t.label)

def dump (p : Pair) : String :=
  p.dumpSide .lhs ++ p.dumpSide .rhs

end TwinForest.Pair

namespace TwinForest

/-- A node of one of several pairs, given by the number of the pair and the key of the node. -/
structure NodeRef where
  pair : Nat
  key : Key
deriving DecidableEq, Repr

end TwinForest
