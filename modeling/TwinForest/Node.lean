import TwinForest.Forest
import TwinForest.ParseTree.Basic
import TwinForest.Store

/-!
# Built nodes

A node of a built tree knows its key in the store of all nodes. The store holds every node together
with everything below it, so that the tree at a key need not be put together again.
-/

namespace TwinForest

inductive Form where
  | list (opening closing : Delimiter) (descendants : Nat)
  | atom (atom : Atom)
deriving DecidableEq, Repr

structure Node where
  key : Key
  form : Form
deriving DecidableEq, Repr

namespace Form

/-- How many nodes a node with this form adds to its parent's count: itself and those below it. -/
def weight : Form → Nat
  | list _ _ descendants => descendants + 1
  | atom _ => 1

def isEmptyAtom : Form → Bool
  | list _ _ _ => false
  | atom a => a.content.isEmpty

def commentPositions : Form → List Span
  | list _ _ _ => []
  | atom a => if a.kind = .comment then a.position else []

end Form

def Tree.key (t : Tree Node) : Key :=
  t.label.key

def Tree.childKeys (t : Tree Node) : List Key :=
  t.children.roots.map Node.key

/-- All built nodes, each with everything below it. -/
abbrev Nodes := Store (Tree Node)

namespace Nodes

def node (nodes : Nodes) (key : Key) : Except Fault (Tree Node) :=
  match nodes.get? key with
  | some t => .ok t
  | none => .error (.foreignKey key)

/-- The spans of the comments of a forest, in order, before the given ones. -/
def commentsOnto (spans : List Span) : Forest Node → List Span
  | .nil => spans
  | .cons n children rest =>
    n.form.commentPositions ++ commentsOnto (commentsOnto spans rest) children

def commentsOf (t : Tree Node) : List Span :=
  t.label.form.commentPositions ++ commentsOnto [] t.children

theorem commentsOnto_eq (spans : List Span) (f : Forest Node) :
    commentsOnto spans f = f.preorder.flatMap (·.form.commentPositions) ++ spans := by
  induction f generalizing spans with
  | nil => rfl
  | cons n children rest ihc ihr => simp [commentsOnto, Forest.preorder, ihc, ihr]

/-- The spans of the comments below the given roots, in order. A root may be given more than once. -/
def commentPositions (nodes : Nodes) (roots : List Key) : Except Fault (List Span) :=
  (roots.mapM nodes.node).map (·.flatMap commentsOf)

end Nodes

end TwinForest
