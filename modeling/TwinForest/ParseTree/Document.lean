import TwinForest.Json.Printer
import TwinForest.ParseTree.Basic

/-!
# Parse trees in documents

A parse tree is written as an object with its variant under `type`. Reading also takes an array of
the variant and the fields in order, and leaves out fields that have a default. The variant is looked
at before all other members of an object, which are held until it is known. A variant in a held value
may be given by its number as well as by its name.
-/

namespace TwinForest.ParseTree

mutual

def toJson : ParseTree → Json
  | .list opening children closing =>
    .object
      [("type", .string "list"),
       ("openPosition", Span.listToJson opening.position),
       ("openContent", .string opening.content),
       ("children", .array (childrenToJson children)),
       ("closePosition", Span.listToJson closing.position),
       ("closeContent", .string closing.content)]
  | .atom a =>
    .object
      [("type", .string "atom"),
       ("position", Span.listToJson a.position),
       ("content", .string a.content),
       ("kind", .string a.kind.name)]

def childrenToJson : List ParseTree → List Json
  | [] => []
  | t :: ts => t.toJson :: childrenToJson ts

end

def listToJson (ts : List ParseTree) : Json :=
  .array (childrenToJson ts)

inductive Variant where
  | list
  | atom
deriving DecidableEq, Repr

/-- Decodes a variant: its name, or in a held value also its number. -/
def Variant.ofJson (access : Json.Access) : Json → Except DecodeError Variant
  | .string "list" => .ok .list
  | .string "atom" => .ok .atom
  | .string name => .error (.unknownVariant name ["list", "atom"])
  | .number (.integer n) =>
    if access = .held ∧ 0 ≤ n then
      if n = 0 then .ok .list
      else if n = 1 then .ok .atom
      else .error (.invalidValue (.number (.integer n)) "variant index 0 <= i < 2")
    else .error (.invalidType (.number (.integer n)) "variant identifier")
  | j => j.refuse "variant identifier"

/-- The variant that the members of an object name, unless it was met before. It has to be there
once; all other members are read in passing. There are no more members if `whole` holds. -/
def Variant.ofMembers (access : Json.Access) (whole : Bool) (found : Option Variant) :
    List (String × Json) → Except DecodeError Variant
  | [] => do
    Json.ending whole
    Json.required "type" found
  | (name, j) :: members =>
    if name = "type" then do
      let found ← Json.field name found (ofJson access j)
      ofMembers access whole found members
    else do
      access.read j
      ofMembers access whole found members

structure ListFields where
  openPosition : Option (List Span) := none
  openContent : Option String := none
  children : Option (List ParseTree) := none
  closePosition : Option (List Span) := none
  closeContent : Option String := none

/-- The list with these fields; absent ones are empty. -/
def ListFields.tree (fields : ListFields) : ParseTree :=
  .list ⟨fields.openPosition.getD [], fields.openContent.getD ""⟩ (fields.children.getD [])
    ⟨fields.closePosition.getD [], fields.closeContent.getD ""⟩

structure AtomFields where
  position : Option (List Span) := none
  content : Option String := none
  kind : Option AtomKind := none

/-- The atom with these fields. Its content has to be there. -/
def AtomFields.tree (fields : AtomFields) : Except DecodeError ParseTree := do
  let content ← Json.required "content" fields.content
  return .atom ⟨fields.position.getD [], content, fields.kind.getD .normal⟩

/-- Decodes the members of an atom in order. Members with other names are passed over. -/
def AtomFields.ofMembers (fields : AtomFields) :
    List (String × Json) → Except DecodeError AtomFields
  | [] => .ok fields
  | (name, j) :: members =>
    match name with
    | "position" => do
      let position ← Json.field name fields.position (Span.listOfJson j)
      ofMembers { fields with position } members
    | "content" => do
      let content ← Json.field name fields.content j.toText
      ofMembers { fields with content } members
    | "kind" => do
      let kind ← Json.field name fields.kind (AtomKind.ofJson j)
      ofMembers { fields with kind } members
    | _ => ofMembers fields members

def atomOfItems (items : List Json) : Except DecodeError ParseTree := do
  let position ← Json.itemOr items 0 [] Span.listOfJson
  let content ← (← Json.itemAt items 1 "struct variant RawNode::Atom with 3 elements").toText
  let kind ← Json.itemOr items 2 .normal AtomKind.ofJson
  Json.atMost items 3
  return .atom ⟨position, content, kind⟩

mutual

def ofJson (access : Json.Access) : Json → Except DecodeError ParseTree
  | .object members => do
    match ← Variant.ofMembers access.inside true none members with
    | .list => return (← listOfMembers {} members).tree
    | .atom => (← AtomFields.ofMembers {} members).tree
  | .broken members => do
    let _ ← Variant.ofMembers access.inside false none members
    throw .malformed
  | .array [] => .error (.missingField "type")
  | .array (tag :: items) => do
    let variant ← Variant.ofJson access tag
    items.forM access.inside.read
    match variant with
    | .list => do
      let openPosition ← Json.itemOr items 0 [] Span.listOfJson
      let openContent ← Json.itemOr items 1 "" Json.toText
      let children ← childrenOfItems items
      let closePosition ← Json.itemOr items 3 [] Span.listOfJson
      let closeContent ← Json.itemOr items 4 "" Json.toText
      Json.atMost items 5
      return .list ⟨openPosition, openContent⟩ children ⟨closePosition, closeContent⟩
    | .atom => atomOfItems items
  | j => j.refuse "internally tagged enum RawNode"

def listOfMembers (fields : ListFields) : List (String × Json) → Except DecodeError ListFields
  | [] => .ok fields
  | (name, j) :: members =>
    match name with
    | "openPosition" => do
      let openPosition ← Json.field name fields.openPosition (Span.listOfJson j)
      listOfMembers { fields with openPosition } members
    | "openContent" => do
      let openContent ← Json.field name fields.openContent j.toText
      listOfMembers { fields with openContent } members
    | "children" => do
      let children ← Json.field name fields.children (childrenOfJson j)
      listOfMembers { fields with children } members
    | "closePosition" => do
      let closePosition ← Json.field name fields.closePosition (Span.listOfJson j)
      listOfMembers { fields with closePosition } members
    | "closeContent" => do
      let closeContent ← Json.field name fields.closeContent j.toText
      listOfMembers { fields with closeContent } members
    | _ => listOfMembers fields members

/-- Decodes the third item of a list after its variant, its children. -/
def childrenOfItems : List Json → Except DecodeError (List ParseTree)
  | _ :: _ :: j :: _ => childrenOfJson j
  | _ => .ok []

def childrenOfJson : Json → Except DecodeError (List ParseTree)
  | .array items => treesOfItems .held items
  | j => j.refuse "a sequence"

def treesOfItems (access : Json.Access) : List Json → Except DecodeError (List ParseTree)
  | [] => .ok []
  | j :: items => do
    let t ← ofJson access j
    let ts ← treesOfItems access items
    return t :: ts

end

def listOfJson (access : Json.Access) : Json → Except DecodeError (List ParseTree)
  | .array items => treesOfItems access.inside items
  | j => j.refuse "a sequence"

def encode (ts : List ParseTree) : String :=
  (listToJson ts).render

def decode (text : String) : Except DecodeError (List ParseTree) :=
  Json.decodeText listOfJson text

end TwinForest.ParseTree
