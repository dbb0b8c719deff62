import TwinForest.Node

/-!
# Building trees

A builder normalises trees while it stores them. Atoms lose the line terminator that a parser left on
them, empty atoms are dropped from lists, and a list without delimiters around a single child is that
child. Both sides of a comparison are built with one builder, so that they share one store.

A node can be the child of one list only. A call that fails keeps what it did before it failed: the
children before the offending one stay attached.
-/

namespace TwinForest

structure Builder where
  nodes : Nodes
  /-- Whether the node at each key has a parent. -/
  attached : Store Bool

namespace Builder

def empty : Builder :=
  ⟨Store.empty, Store.empty⟩

def push : Builder → Form → Forest Node → Key × Builder
  | ⟨nodes, attached⟩, form, children =>
    let key := nodes.size
    (key, ⟨(nodes.alloc ⟨⟨key, form⟩, children⟩).2, (attached.alloc false).2⟩)

def atom (b : Builder) (a : Atom) : Key × Builder :=
  b.push (.atom a.trim) .nil

/-- Marks nodes as attached, one after the other, up to the first that is attached already. -/
def attach (attached : Store Bool) : List Key → Except Fault Unit × Store Bool
  | [] => (.ok (), attached)
  | key :: keys =>
    match attached.item key with
    | .error fault => (.error fault, attached)
    | .ok true => (.error (.alreadyAttached key), attached)
    | .ok false => attach (attached.put key true) keys

def kept (children : List (Tree Node)) : List (Tree Node) :=
  children.filter fun t => !t.label.form.isEmptyAtom

/-- The number of nodes in the given trees, by the counts that their roots hold. -/
def weigh (children : List (Tree Node)) : Nat :=
  children.foldr (fun t n => t.label.form.weight + n) 0

/-- Builds a list of the given children that has passed the rule for single children. -/
def enclose : Builder → Delimiter → Delimiter → List (Tree Node) → Except Fault Key × Builder
  | ⟨nodes, attached⟩, opening, closing, children =>
    match attach attached (children.map Tree.key) with
    | (.error fault, attached) => (.error fault, ⟨nodes, attached⟩)
    | (.ok (), attached) =>
      let (key, b) := push ⟨nodes, attached⟩ (.list opening closing (weigh children))
        (Forest.ofTrees children)
      (.ok key, b)

/-- All keys are looked up before anything else happens. A list that keeps a single child and has no
delimiters is that child, which then is not attached. -/
def list (b : Builder) (opening closing : Delimiter) (children : List Key) :
    Except Fault Key × Builder :=
  match children.mapM b.nodes.item with
  | .error fault => (.error fault, b)
  | .ok children =>
    match kept children with
    | [child] =>
      if opening.content.isEmpty ∧ closing.content.isEmpty then (.ok child.key, b)
      else b.enclose opening closing [child]
    | children => b.enclose opening closing children

mutual

def build (b : Builder) : ParseTree → Except Fault Key × Builder
  | .list opening children closing =>
    match buildAll b children with
    | (.error fault, b) => (.error fault, b)
    | (.ok children, b) => b.list opening closing children
  | .atom a =>
    let (key, b) := b.atom a
    (.ok key, b)

def buildAll (b : Builder) : List ParseTree → Except Fault (List Key) × Builder
  | [] => (.ok [], b)
  | t :: ts =>
    match build b t with
    | (.error fault, b) => (.error fault, b)
    | (.ok key, b) =>
      match buildAll b ts with
      | (.error fault, b) => (.error fault, b)
      | (.ok keys, b) => (.ok (key :: keys), b)

end

end Builder

end TwinForest
