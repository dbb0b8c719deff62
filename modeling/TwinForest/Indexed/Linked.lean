import TwinForest.Indexed.Marked

/-!
# Linked nodes

The last pass gives every node its siblings, and the node before it: the sibling before it, or its
parent when there is none. Links never lead from one side to the other.
-/

namespace TwinForest

structure Linked extends Marked where
  previousSibling : Option Key
  nextSibling : Option Key
  prev : Option Key
deriving DecidableEq, Repr

namespace Linked

/-- Links the nodes of a forest below the given parent whose first tree comes after the given
sibling. -/
def link (parent previousSibling : Option Key) : Forest Marked → Forest Linked
  | .nil => .nil
  | .cons n children rest =>
    let linked : Linked :=
      { n with
        previousSibling
        nextSibling := rest.first?.map (·.node.key)
        prev := previousSibling <|> parent }
    .cons linked (link (some n.node.key) none children) (link parent (some n.node.key) rest)

def display (n : Linked) : String :=
  let mark := if n.unique then "unique" else "shared"
  match n.node.form with
  | .list opening closing descendants =>
    s!"list@{n.id} #{n.contentId} {Text.quote opening.content} {Text.quote closing.content} "
      ++ s!"descendants={descendants} {mark}"
  | .atom a => s!"atom@{n.id} #{n.contentId} {a.kind.name} {Text.quote a.content} {mark}"

end Linked

end TwinForest
