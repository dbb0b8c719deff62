import Std.Data.HashSet
import TwinForest.Builder
import TwinForest.Indexed.Linked

/-!
# Indexed pairs

Two forests of one store, the two sides of a comparison, indexed together. Nodes are numbered from
one, the left side first. No node may lie below two roots. `Pair.ofTrees` builds and indexes two files
at once.
-/

namespace TwinForest

inductive Side where
  | lhs
  | rhs
deriving DecidableEq, Repr

namespace Side

def name : Side → String
  | lhs => "lhs"
  | rhs => "rhs"

end Side

structure Pair where
  /-- All nodes of the store, whether they lie on a side or not. -/
  nodes : Nodes
  lhs : Forest Linked
  rhs : Forest Linked
  table : Store (Option (Tree Linked))
  lhsSize : Nat
  /-- How many nodes are on both sides. -/
  size : Nat
  classes : Nat
  /-- How many content classes have a single node. -/
  singles : Nat

namespace Nodes

/-- Visits the nodes of a forest, none of which may have been visited before. -/
def reach (seen : Std.HashSet Key) : Forest Node → Except Fault (Std.HashSet Key)
  | .nil => .ok seen
  | .cons n children rest =>
    if seen.contains n.key then .error (.reachedTwice n.key)
    else do
      let seen ← reach (seen.insert n.key) children
      reach seen rest

/-- The forest below the given roots, and the nodes visited up to its end. -/
def side (nodes : Nodes) (seen : Std.HashSet Key) :
    List Key → Except Fault (Forest Node × Std.HashSet Key)
  | [] => .ok (.nil, seen)
  | key :: keys => do
    let t ← nodes.item key
    let seen ← reach seen (.cons t.label t.children .nil)
    let (rest, seen) ← side nodes seen keys
    return (.cons t.label t.children rest, seen)

def enter (table : Array (Option (Tree Linked))) :
    Forest Linked → Array (Option (Tree Linked))
  | .nil => table
  | .cons n children rest =>
    enter (enter (table.setIfInBounds n.node.key (some ⟨n, children⟩)) children) rest

/-- Indexes two forests that share no node. -/
def indexForests (nodes : Nodes) (lhs rhs : Forest Node) : Except Fault Pair := do
  let left := Placed.numberSide 1 lhs
  let right := Placed.numberSide left.2 rhs
  let leftClasses := Classified.classify ∅ left.1
  let rightClasses := Classified.classify leftClasses.2 right.1
  let tally := (Tally.count ∅ leftClasses.1).count rightClasses.1
  let lhs ← Marked.mark tally leftClasses.1
  let rhs ← Marked.mark tally rightClasses.1
  let lhs := Linked.link none none lhs
  let rhs := Linked.link none none rhs
  return {
    nodes, lhs, rhs
    table := ⟨enter (enter (nodes.column none).items lhs) rhs⟩
    lhsSize := left.2 - 1
    size := right.2 - 1
    classes := rightClasses.2.size
    singles := tally.singles }

def index (nodes : Nodes) (lhs rhs : List Key) : Except Fault Pair := do
  let (lhs, seen) ← nodes.side ∅ lhs
  let (rhs, _) ← nodes.side seen rhs
  nodes.indexForests lhs rhs

end Nodes

namespace Pair

def ofTrees (before after : List ParseTree) : Except Fault Pair := do
  let (lhs, b) := Builder.empty.buildAll before
  let (rhs, b) := b.buildAll after
  b.nodes.index (← lhs) (← rhs)

def forest (p : Pair) : Side → Forest Linked
  | .lhs => p.lhs
  | .rhs => p.rhs

def sideSize (p : Pair) : Side → Nat
  | .lhs => p.lhsSize
  | .rhs => p.size - p.lhsSize

end Pair

end TwinForest
