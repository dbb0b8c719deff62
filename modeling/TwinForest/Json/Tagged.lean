import TwinForest.Json.Decode

/-!
# Tagged values

Some values are written as an object with two members: a tag that names a variant, and the content
of that variant under `value`. Either may come first, and other members are passed over. Reading also
takes an array of the tag and the content. Content that comes before its tag is held until the tag is
known.
-/

namespace TwinForest.Json

structure Tagged (ν α : Type) where
  /-- The name of the member that holds the tag. -/
  tag : String
  /-- What a value of the type should be, in messages. -/
  expected : String
  variants : List (String × ν)
  /-- The value of a variant whose content is absent. -/
  absent : ν → Except DecodeError α
  content : ν → Access → Json → Except DecodeError α

namespace Tagged

variable {ν α : Type}

def contentName : String := "value"

def variantOf (t : Tagged ν α) (name : String) : Except DecodeError ν :=
  match t.variants.find? fun variant => variant.1 == name with
  | some variant => .ok variant.2
  | none => .error (.unknownVariant name (t.variants.map Prod.fst))

def nameOfVariant (t : Tagged ν α) : Json → Except DecodeError ν
  | .string name => t.variantOf name
  | j => j.refuse "variant identifier"

/-- Decodes a tag in an object: the name of a variant, or an object with the name as its only member,
which is null. -/
def variant (t : Tagged ν α) : Json → Except DecodeError ν
  | .string name => t.variantOf name
  | .object ((name, j) :: more) => do
    let v ← t.variantOf name
    match j, more with
    | .null, [] => return v
    | .null, _ => throw .malformed
    | j, _ => j.refuse "unit"
  | .broken ((name, j) :: _) => do
    let _ ← t.variantOf name
    match j with
    | .null => throw .malformed
    | j => j.refuse "unit"
  | _ => .error .malformed

/-- Refuses members that repeat the tag or the content. -/
def noMore (whole : Bool) (a : α) : List (String × Json) → Except DecodeError α
  | [] => do
    ending whole
    return a
  | (name, _) :: _ => .error (.duplicateField name)

/-- Decodes the members that are the tag or the content, in their order, and all there are if `whole`
holds. -/
def ofMembers (t : Tagged ν α) (access : Access) (whole : Bool) :
    List (String × Json) → Except DecodeError α
  | [] => do
    ending whole
    throw (.missingField t.tag)
  | (name, j) :: members =>
    if name = t.tag then do
      let v ← t.variant j
      match members with
      | [] => do
        ending whole
        t.absent v
      | (next, content) :: more =>
        if next = t.tag then throw (.duplicateField t.tag)
        else do
          let a ← t.content v access content
          noMore whole a more
    else do
      -- The content comes first and is held until its tag is met.
      access.read j
      match members with
      | [] => do
        ending whole
        throw (.missingField t.tag)
      | (next, tag) :: more =>
        if next = t.tag then do
          let v ← t.variant tag
          let a ← t.content v .held j
          noMore whole a more
        else throw (.duplicateField name)

def relevant (t : Tagged ν α) (members : List (String × Json)) : List (String × Json) :=
  members.filter fun member => member.1 == t.tag || member.1 == contentName

def decode (t : Tagged ν α) (access : Access) : Json → Except DecodeError α
  | .object members => t.ofMembers access.inside true (t.relevant members)
  | .broken members => t.ofMembers access.inside false (t.relevant members)
  | .array items => do
    let v ← t.nameOfVariant (← itemAt items 0 t.expected)
    let a ← t.content v access.inside (← itemAt items 1 t.expected)
    if items.length ≤ 2 then return a else throw .malformed
  | j => j.refuse t.expected

end Tagged

/-- Decodes the members of an object of which a single one counts, and all there are if `whole`
holds. -/
def onlyField {α : Type} (name : String) (value : Json → Except DecodeError α) (whole : Bool)
    (found : Option α) : List (String × Json) → Except DecodeError α
  | [] => do
    ending whole
    required name found
  | (other, j) :: members =>
    if other = name then do
      let found ← field name found (value j)
      onlyField name value whole found members
    else onlyField name value whole found members

end TwinForest.Json
