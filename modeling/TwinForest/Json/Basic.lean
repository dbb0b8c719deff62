/-!
# JSON values

A JSON value as it stands in a document: the members of an object keep their order and may repeat a
name. Numbers are integers when they are written without fraction and exponent and fit 64 bits, and
doubles otherwise.

Some text has no value. Its place is kept, so that a reader who passes over it, or stops before it,
need not mind. A value is sound when nothing in it is such a place, and readable when it does not nest
too deep either.
-/

namespace TwinForest

inductive Json.Number where
  | integer (value : Int)
  /-- A double, given by its bits. -/
  | real (bits : UInt64)
deriving DecidableEq, Repr

inductive Json where
  | null
  | bool (value : Bool)
  | number (value : Json.Number)
  | string (value : String)
  | array (items : List Json)
  | object (members : List (String × Json))
  /-- A number beyond all doubles, a string with half of a surrogate pair, or the place where a
  document ceases to follow the grammar. -/
  | unreadable
  /-- An object in which no more can be told than its first members, since the next name is such a
  string, or the document ceases to follow the grammar. -/
  | broken (members : List (String × Json))
deriving Repr

namespace Json

def nat (n : Nat) : Json :=
  .number (.integer n)

mutual

def depth : Json → Nat
  | .array items => itemsDepth items + 1
  | .object members | .broken members => membersDepth members + 1
  | _ => 0

def itemsDepth : List Json → Nat
  | [] => 0
  | j :: items => max j.depth (itemsDepth items)

def membersDepth : List (String × Json) → Nat
  | [] => 0
  | (_, j) :: members => max j.depth (membersDepth members)

end

mutual

def sound : Json → Bool
  | .unreadable | .broken _ => false
  | .array items => itemsSound items
  | .object members => membersSound members
  | _ => true

def itemsSound : List Json → Bool
  | [] => true
  | j :: items => j.sound && itemsSound items

def membersSound : List (String × Json) → Bool
  | [] => true
  | (_, j) :: members => j.sound && membersSound members

end

/-- Whether the value can be read where so many more levels may nest. -/
def readable (room : Nat) (j : Json) : Bool :=
  j.sound && j.depth ≤ room

end Json

end TwinForest
