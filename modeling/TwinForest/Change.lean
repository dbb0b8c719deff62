import TwinForest.Pair.Navigation

/-!
# Changes

What a comparison says about the nodes of a pair. The map of changes is kept by the numbers of nodes,
so nodes of different pairs with one number share an entry.
-/

namespace TwinForest

inductive Change where
  /-- The node is the same as the given one on the other side. -/
  | unchanged (partner : NodeRef)
  | replacedComment (before after : NodeRef)
  | replacedString (before after : NodeRef)
  | novel
deriving DecidableEq, Repr

structure ChangeMap where
  changes : Std.HashMap NodeId Change

namespace ChangeMap

def empty : ChangeMap :=
  ⟨∅⟩

/-- Records the change of a node, and gives the one recorded before. -/
def insert (m : ChangeMap) (n : Linked) (change : Change) : Option Change × ChangeMap :=
  (m.changes[n.id]?, ⟨m.changes.insert n.id change⟩)

def get? (m : ChangeMap) (n : Linked) : Option Change :=
  m.changes[n.id]?

def isUnchanged (m : ChangeMap) (n : Linked) : Bool :=
  match m.get? n with
  | some (.unchanged _) => true
  | _ => false

def size (m : ChangeMap) : Nat :=
  m.changes.size

def isEmpty (m : ChangeMap) : Bool :=
  m.changes.isEmpty

end ChangeMap

end TwinForest
