import TwinForest.Json.Reader
import TwinForest.Text.Quoted

/-!
# Decoding values

A document is decoded in two steps: its text is read as a value, and the value is taken apart by the
decoder of a type, which reports the first thing that does not fit.

A decoder looks only at what it needs, in the order of the text. Where it needs a value as a whole,
nothing in the value may be unreadable or nest too deep; what it passes over may be anything that
follows the grammar. A value that was read as a whole before it is decoded is held.
-/

namespace TwinForest

inductive DecodeError where
  | malformed
  | invalidType (found : Json) (expected : String)
  | invalidValue (found : Json) (expected : String)
  | invalidLength (length : Nat) (expected : String)
  | missingField (name : String)
  | duplicateField (name : String)
  | unknownVariant (name : String) (known : List String)
  | invalidHandle

namespace Json

def describe : Json → String
  | .null => "null"
  | .bool b => s!"boolean `{b}`"
  | .number (.integer n) => s!"integer `{(Number.integer n).text}`"
  | .number (.real x) => s!"floating point `{(Number.real x).text}`"
  | .string s => s!"string {Text.quote s}"
  | .array _ => "sequence"
  | .object _ | .broken _ => "map"
  | .unreadable => "unreadable value"

end Json

namespace DecodeError

def choice : List String → String
  | [] => "there are no variants"
  | [a] => s!"expected `{a}`"
  | [a, b] => s!"expected `{a}` or `{b}`"
  | names => "expected one of " ++ ", ".intercalate (names.map fun name => s!"`{name}`")

def message : DecodeError → String
  | malformed => "malformed document"
  | invalidType found expected => s!"invalid type: {found.describe}, expected {expected}"
  | invalidValue found expected => s!"invalid value: {found.describe}, expected {expected}"
  | invalidLength length expected => s!"invalid length {length}, expected {expected}"
  | missingField name => s!"missing field `{name}`"
  | duplicateField name => s!"duplicate field `{name}`"
  | unknownVariant name known => s!"unknown variant `{name}`, {choice known}"
  | invalidHandle => "UUID parsing failed"

end DecodeError

namespace Json

def maxDepth : Nat := 127

/-- How a decoder comes by a value. -/
inductive Access where
  /-- The value is still in the text, where so many more levels may nest. -/
  | direct (room : Nat)
  /-- The value has been read as a whole. -/
  | held
deriving DecidableEq, Repr

namespace Access

def inside : Access → Access
  | direct room => direct (room - 1)
  | held => held

/-- Takes a value as a whole. Nothing is left to check in one that is held. -/
def read (access : Access) (j : Json) : Except DecodeError Unit :=
  match access with
  | direct room => if j.readable room then .ok () else .error .malformed
  | held => .ok ()

end Access

/-- Ends the decoding of the members of an object, unless there are more that cannot be told. -/
def ending (whole : Bool) : Except DecodeError Unit :=
  if whole then .ok () else .error .malformed

def refuse (j : Json) (expected : String) : Except DecodeError α :=
  match j with
  -- The text itself is at fault, and not the type of what it says.
  | .unreadable => .error .malformed
  | j => .error (.invalidType j expected)

def toText : Json → Except DecodeError String
  | .string s => .ok s
  | j => j.refuse "a string"

def toItems (item : Json → Except DecodeError α) : Json → Except DecodeError (List α)
  | .array items => items.mapM item
  | j => j.refuse "a sequence"

def toBool : Json → Except DecodeError Bool
  | .bool b => .ok b
  | j => j.refuse "a boolean"

def toNatBelow (bound : Nat) (expected : String) : Json → Except DecodeError Nat
  | .number (.integer n) =>
    if 0 ≤ n ∧ n < bound then .ok n.toNat
    else .error (.invalidValue (.number (.integer n)) expected)
  | j => j.refuse expected

def toOption (value : Json → Except DecodeError α) : Json → Except DecodeError (Option α)
  | .null => .ok none
  | j => some <$> value j

def itemAt (items : List Json) (index : Nat) (expected : String) : Except DecodeError Json :=
  match items[index]? with
  | some j => .ok j
  | none => .error (.invalidLength index expected)

def itemOr (items : List Json) (index : Nat) (default : α)
    (value : Json → Except DecodeError α) : Except DecodeError α :=
  match items[index]? with
  | some j => value j
  | none => .ok default

def atMost (items : List Json) (fields : Nat) : Except DecodeError Unit :=
  if items.length ≤ fields then .ok ()
  else
    let noun := if fields = 1 then "element" else "elements"
    .error (.invalidLength items.length s!"{fields} {noun} in sequence")

/-- Decodes a field unless it was decoded before. -/
def field (name : String) (before : Option α) (value : Except DecodeError α) :
    Except DecodeError (Option α) :=
  if before.isSome then .error (.duplicateField name) else some <$> value

def required (name : String) : Option α → Except DecodeError α
  | some a => .ok a
  | none => .error (.missingField name)

def decodeText (value : Access → Json → Except DecodeError α) (text : String) :
    Except DecodeError α := do
  let d := read text
  let a ← value (.direct maxDepth) d.value
  -- Where the grammar breaks off matters only to a decoder that got so far.
  ending d.whole
  return a

end Json

end TwinForest
