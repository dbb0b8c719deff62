import TwinForest.Text.Inspect

/-!
# Faults

What goes wrong when an operation is given something that it cannot take, most often a key.
-/

namespace TwinForest

/-- A position in a store, counted from zero in the order of allocation. -/
abbrev Key := Nat

/-- The number of an indexed node, counted from one. -/
abbrev NodeId := Nat

/-- The number of a class of nodes with equal content, counted from one. -/
abbrev ContentId := Nat

def Key.display (key : Key) : String :=
  s!"Key({key})"

inductive Fault where
  | outOfRange (size : Nat) (key : Key)
  | alreadyAttached (key : Key)
  /-- The node lies below two roots, or twice below one. -/
  | reachedTwice (key : Key)
  | notCounted (content : ContentId) (key : Key)
  | foreignKey (key : Key)
  /-- The node lies below no root. -/
  | notReached (key : Key)
  /-- The whole seconds of a duration do not fit. -/
  | longDuration
  /-- The name of a thread, given by its bytes, has a null byte at the position. -/
  | nullInName (position : Nat) (bytes : List UInt8)
deriving DecidableEq, Repr

def Fault.message : Fault → String
  | outOfRange size key => s!"index out of bounds: the len is {size} but the index is {key}"
  | alreadyAttached key => s!"{key.display} is already a child of another list"
  | reachedTwice key => s!"{key.display} is reachable more than once"
  | notCounted content key => s!"content id {content} of {key.display} was never counted"
  | foreignKey key => s!"{key.display} does not belong to this syntax arena"
  | notReached key => s!"{key.display} is not reachable from any root"
  | longDuration => "overflow in Duration::new"
  | nullInName position bytes =>
    "thread name may not contain interior null bytes: " ++
      Inspect.tuple "NulError"
        [toString position, Inspect.sequence (bytes.map fun byte => toString byte.toNat)]

end TwinForest
