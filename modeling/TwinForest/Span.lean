import TwinForest.Json.Decode

/-!
# Spans

A span is a stretch of one source line, given by the line and the columns where it starts and ends.
Spans are ordered by line, then start, then end, and shown as `line:start-end`.
-/

namespace TwinForest

structure Span where
  line : UInt32
  startCol : UInt32
  endCol : UInt32
deriving DecidableEq, Repr, Inhabited

namespace Span

def le (a b : Span) : Bool :=
  if a.line = b.line then
    if a.startCol = b.startCol then a.endCol ≤ b.endCol else a.startCol < b.startCol
  else a.line < b.line

def display (s : Span) : String :=
  s!"{s.line.toNat}:{s.startCol.toNat}-{s.endCol.toNat}"

def toJson (s : Span) : Json :=
  .object
    [("line", .nat s.line.toNat), ("startCol", .nat s.startCol.toNat),
     ("endCol", .nat s.endCol.toNat)]

def listToJson (spans : List Span) : Json :=
  .array (spans.map toJson)

def coordinate (j : Json) : Except DecodeError UInt32 :=
  Nat.toUInt32 <$> j.toNatBelow UInt32.size "u32"

structure Fields where
  line : Option UInt32 := none
  startCol : Option UInt32 := none
  endCol : Option UInt32 := none

/-- Decodes the members of an object in order. Members with other names are passed over. -/
def Fields.ofMembers (fields : Fields) : List (String × Json) → Except DecodeError Fields
  | [] => .ok fields
  | (name, j) :: members =>
    match name with
    | "line" => do
      let line ← Json.field name fields.line (coordinate j)
      ofMembers { fields with line } members
    | "startCol" => do
      let startCol ← Json.field name fields.startCol (coordinate j)
      ofMembers { fields with startCol } members
    | "endCol" => do
      let endCol ← Json.field name fields.endCol (coordinate j)
      ofMembers { fields with endCol } members
    | _ => ofMembers fields members

/-- What a span that is too short should have been. -/
def expectedItems : String := "struct SingleLineSpan with 3 elements"

/-- Decodes a span: an object with its three fields, or an array of the three. -/
def ofJson : Json → Except DecodeError Span
  | .object members => do
    let fields ← Fields.ofMembers {} members
    let line ← Json.required "line" fields.line
    let startCol ← Json.required "startCol" fields.startCol
    let endCol ← Json.required "endCol" fields.endCol
    return { line, startCol, endCol }
  | .array items => do
    let line ← coordinate (← Json.itemAt items 0 expectedItems)
    let startCol ← coordinate (← Json.itemAt items 1 expectedItems)
    let endCol ← coordinate (← Json.itemAt items 2 expectedItems)
    Json.atMost items 3
    return { line, startCol, endCol }
  | j => j.refuse "struct SingleLineSpan"

def listOfJson (j : Json) : Except DecodeError (List Span) :=
  j.toItems ofJson

end Span

end TwinForest
