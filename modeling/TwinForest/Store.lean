import TwinForest.Fault

/-!
# Stores

A store is a table to which items are only ever added. Keys are handed out in order from zero. A
table that holds something for every key of a store is a store of the same size.
-/

namespace TwinForest

structure Store (α : Type u) where
  items : Array α
deriving DecidableEq, Repr

namespace Store

variable {α : Type u} {β : Type v}

def empty : Store α :=
  ⟨#[]⟩

instance : Inhabited (Store α) := ⟨empty⟩

def size (s : Store α) : Nat :=
  s.items.size

def isEmpty (s : Store α) : Bool :=
  s.items.isEmpty

def alloc (s : Store α) (a : α) : Key × Store α :=
  (s.size, ⟨s.items.push a⟩)

def get? (s : Store α) (key : Key) : Option α :=
  s.items[key]?

def item (s : Store α) (key : Key) : Except Fault α :=
  match s.get? key with
  | some a => .ok a
  | none => .error (.outOfRange s.size key)

/-- Replaces the item at a key, if there is one. -/
def put (s : Store α) (key : Key) (a : α) : Store α :=
  ⟨s.items.setIfInBounds key a⟩

def set (s : Store α) (key : Key) (a : α) : Except Fault (Store α) :=
  if key < s.size then .ok (s.put key a)
  else .error (.outOfRange s.size key)

/-- A table with the same thing for every key of the store. -/
def column (s : Store α) (b : β) : Store β :=
  ⟨Array.replicate s.size b⟩

end Store

end TwinForest
