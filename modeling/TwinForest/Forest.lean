/-!
# Forests

A forest is a sequence of trees with a label at every node. It is given by its first tree, which is
a label with a forest of children, and the rest of the sequence. Every pass over both sides of a
comparison is a recursion on this one type.

## Main definitions

* `Forest`, `Tree`: sequences of labelled trees, and single trees.
* `Forest.ofTrees`, `Forest.trees`: the two ways between forests and lists of trees.
* `Forest.preorder`, `Forest.postorder`: the labels, parents first or children first.
* `Forest.next?`, `Forest.walk`: a pre-order walk that keeps a forest of nodes still to visit.
-/

namespace TwinForest

/-- A sequence of labelled trees: the first tree by its label and children, and the rest. -/
inductive Forest (α : Type u) where
  | nil
  | cons (label : α) (children rest : Forest α)
deriving DecidableEq, Repr

structure Tree (α : Type u) where
  label : α
  children : Forest α
deriving DecidableEq, Repr

namespace Forest

variable {α : Type u} {β : Type v}

def append : Forest α → Forest α → Forest α
  | nil, g => g
  | cons a children rest, g => cons a children (append rest g)

instance : Append (Forest α) := ⟨append⟩

def ofTrees : List (Tree α) → Forest α
  | [] => nil
  | t :: ts => cons t.label t.children (ofTrees ts)

def trees : Forest α → List (Tree α)
  | nil => []
  | cons a children rest => ⟨a, children⟩ :: trees rest

def roots : Forest α → List α
  | nil => []
  | cons a _ rest => a :: roots rest

def first? : Forest α → Option α
  | nil => none
  | cons a _ _ => some a

/-- The number of trees. -/
def width : Forest α → Nat
  | nil => 0
  | cons _ _ rest => rest.width + 1

def size : Forest α → Nat
  | nil => 0
  | cons _ children rest => children.size + rest.size + 1

def preorder : Forest α → List α
  | nil => []
  | cons a children rest => a :: (children.preorder ++ rest.preorder)

def postorder : Forest α → List α
  | nil => []
  | cons a children rest => children.postorder ++ a :: rest.postorder

/-- Every node with everything below it, every node before its children. -/
def subtrees : Forest α → List (Tree α)
  | nil => []
  | cons a children rest => ⟨a, children⟩ :: (children.subtrees ++ rest.subtrees)

def map (f : α → β) : Forest α → Forest β
  | nil => nil
  | cons a children rest => cons (f a) (children.map f) (rest.map f)

/-- One step of a walk: the node to visit now, and the forest of nodes still to visit, where its
children come before all others. -/
def next? : Forest α → Option (Tree α × Forest α)
  | nil => none
  | cons a children rest => some (⟨a, children⟩, children ++ rest)

theorem size_append (f g : Forest α) : (f ++ g).size = f.size + g.size := by
  induction f with
  | nil => exact (Nat.zero_add _).symm
  | cons a children rest _ ih =>
    change children.size + (rest ++ g).size + 1 = _
    simp only [ih, size]
    omega

/-- Every step of a walk leaves one node less. -/
theorem size_next? {f g : Forest α} {t : Tree α} (h : f.next? = some (t, g)) :
    f.size = g.size + 1 := by
  cases f with
  | nil => simp [next?] at h
  | cons a children rest =>
    simp only [next?, Option.some.injEq, Prod.mk.injEq] at h
    rw [← h.2, size_append]
    rfl

def walk (f : Forest α) : List (Tree α) :=
  match h : f.next? with
  | none => []
  | some (t, rest) =>
    have := size_next? h
    t :: walk rest
termination_by f.size

end Forest

namespace Tree

variable {α : Type u} {β : Type v}

def map (f : α → β) (t : Tree α) : Tree β :=
  ⟨f t.label, t.children.map f⟩

end Tree

end TwinForest
