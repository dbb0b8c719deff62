import TwinForest.Json.Token

/-!
# Reading documents

A document is read token by token with the arrays and objects that are still open kept on a stack.
When a token does not fit, or there are too few, every array and object that is still open gets a
mark behind what it holds so far. A decoder that goes through the value in order thus meets all that
was read before it meets the mark.
-/

namespace TwinForest.Json

structure Members where
  /-- The members in reverse, up to the first whose name has no value. -/
  done : List (String × Json)
  /-- Whether all names have a value. -/
  whole : Bool

namespace Members

def empty : Members :=
  ⟨[], true⟩

/-- The members when the next name has no value. -/
def cut (m : Members) : Members :=
  { m with whole := false }

def add (m : Members) (name : String) (j : Json) : Members :=
  if m.whole then { m with done := (name, j) :: m.done } else m

def object (m : Members) : Json :=
  if m.whole then .object m.done.reverse else .broken m.done.reverse

end Members

/-- An array or object that waits for a value. What it holds already is kept in reverse. -/
inductive Frame where
  | item (done : List Json)
  | member (done : Members) (name : String)

/-- What may come next in a document. -/
inductive Mode where
  | value
  /-- The first item of an array, or its end. -/
  | firstItem
  /-- The first member of an object, or its end. -/
  | firstMember
  | name (done : Members)
  | colon (done : Members) (name : String)
  /-- A comma, or the end of the array. -/
  | afterItem (done : List Json)
  /-- A comma, or the end of the object. -/
  | afterMember (done : Members)
  | done (value : Json)

structure Reader where
  mode : Mode
  frames : List Frame

/-- Hands a complete value to the innermost open array or object. -/
def deliver (j : Json) : List Frame → Reader
  | [] => ⟨.done j, []⟩
  | .item done :: frames => ⟨.afterItem (j :: done), frames⟩
  | .member done name :: frames => ⟨.afterMember (done.add name j), frames⟩

def stepValue? (frames : List Frame) : Token → Option Reader
  | .null => some (deliver .null frames)
  | .bool b => some (deliver (.bool b) frames)
  | .number n => some (deliver (.number n) frames)
  | .string s => some (deliver (.string s) frames)
  | .overflow => some (deliver .unreadable frames)
  | .loneSurrogate => some (deliver .unreadable frames)
  | .openArray => some ⟨.firstItem, frames⟩
  | .openObject => some ⟨.firstMember, frames⟩
  | _ => none

def step? (r : Reader) (t : Token) : Option Reader :=
  match r.mode, t with
  | .value, t => stepValue? r.frames t
  | .firstItem, .closeArray => some (deliver (.array []) r.frames)
  | .firstItem, t => stepValue? (.item [] :: r.frames) t
  | .firstMember, .closeObject => some (deliver (.object []) r.frames)
  | .firstMember, .string s => some ⟨.colon .empty s, r.frames⟩
  | .firstMember, .loneSurrogate => some ⟨.colon Members.empty.cut "", r.frames⟩
  | .name done, .string s => some ⟨.colon done s, r.frames⟩
  | .name done, .loneSurrogate => some ⟨.colon done.cut "", r.frames⟩
  | .colon done name, .colon => some ⟨.value, .member done name :: r.frames⟩
  | .afterItem done, .comma => some ⟨.value, .item done :: r.frames⟩
  | .afterItem done, .closeArray => some (deliver (.array done.reverse) r.frames)
  | .afterMember done, .comma => some ⟨.name done, r.frames⟩
  | .afterMember done, .closeObject => some (deliver done.object r.frames)
  | _, _ => none

structure Document where
  value : Json
  /-- Whether the text follows the grammar to its end. -/
  whole : Bool

def brokenArray (done : List Json) : Json :=
  .array (Json.unreadable :: done).reverse

/-- The outermost value when the innermost open one breaks off as `j`. -/
def breakOff (j : Json) : List Frame → Json
  | [] => j
  | .item done :: frames => breakOff (brokenArray (j :: done)) frames
  | .member done name :: frames => breakOff (done.add name j).cut.object frames

def Reader.cut (r : Reader) : Json :=
  match r.mode with
  | .value => breakOff .unreadable r.frames
  | .firstItem => breakOff (brokenArray []) r.frames
  | .firstMember => breakOff Members.empty.cut.object r.frames
  | .name done => breakOff done.cut.object r.frames
  | .colon done name => breakOff (done.add name .unreadable).cut.object r.frames
  | .afterItem done => breakOff (brokenArray done) r.frames
  | .afterMember done => breakOff done.cut.object r.frames
  | .done j => j

def Reader.finish (r : Reader) : Document :=
  match r.mode with
  | .done j => ⟨j, true⟩
  | _ => ⟨r.cut, false⟩

def run (r : Reader) : List Token → Document
  | [] => r.finish
  | t :: ts =>
    match step? r t with
    | none => ⟨r.cut, false⟩
    | some r => run r ts

def ofTokens (ts : List Token) : Document :=
  run ⟨.value, []⟩ ts

def read (text : String) : Document :=
  ofTokens (Token.lex text.toList)

/-- The value of a text that follows the grammar to its end. -/
def parse? (text : String) : Option Json :=
  let d := read text
  if d.whole then some d.value else none

end TwinForest.Json
