import Std.Data.HashMap
import TwinForest.Indexed.Placed

/-!
# Content classes

The second pass gives equal numbers to nodes with equal content, on whichever side they are. Atoms
have equal content when their normalised texts are equal; lists when their delimiters are, and their
children one by one. The pass goes from the bottom up, so that a list is looked up by the numbers of
its children.
-/

namespace TwinForest

inductive ContentKey where
  | list (opening closing : String) (children : List ContentId)
  | atom (text : String)
deriving DecidableEq, Hashable, Repr

/-- The content of a node whose children have the given classes. -/
def ContentKey.of (children : List ContentId) : Form → ContentKey
  | .list opening closing _ => .list opening.content closing.content children
  | .atom a => .atom a.normalizedContent

abbrev ContentTable := Std.HashMap ContentKey ContentId

/-- The number of a class; a new class gets the next number. -/
def ContentTable.intern (table : ContentTable) (key : ContentKey) : ContentId × ContentTable :=
  match table[key]? with
  | some id => (id, table)
  | none => (table.size + 1, table.insert key (table.size + 1))

structure Classified extends Placed where
  contentId : ContentId
deriving DecidableEq, Repr

namespace Classified

def classify (table : ContentTable) : Forest Placed → Forest Classified × ContentTable
  | .nil => (.nil, table)
  | .cons placed children rest =>
    let below := classify table children
    let key := ContentKey.of (below.1.roots.map contentId) placed.node.form
    let own := below.2.intern key
    let beside := classify own.2 rest
    (.cons { placed with contentId := own.1 } below.1 beside.1, beside.2)

end Classified

end TwinForest
