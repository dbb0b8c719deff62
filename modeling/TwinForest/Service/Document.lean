import TwinForest.Json.Tagged
import TwinForest.ParseTree.Document
import TwinForest.Service.Message

/-!
# Messages in documents

Requests and replies are tagged values. A request has its tag under `event` and a reply under `type`,
and both have their content under `value`. Content that is an object has a single field.
-/

namespace TwinForest

namespace Request

inductive Variant where
  | parseCode
  | getParseString
  | getTreeString
  | getTree
  | takeTree
  | releaseTree
  | getTreeCount
deriving DecidableEq, Repr

def variants : List (String × Variant) :=
  [("parseCode", .parseCode), ("getParseString", .getParseString),
   ("getTreeString", .getTreeString), ("getTree", .getTree), ("takeTree", .takeTree),
   ("releaseTree", .releaseTree), ("getTreeCount", .getTreeCount)]

def toJson : Request → Json
  | parseCode code => tagged "parseCode" "code" (.string code)
  | getParseString id => tagged "getParseString" "id" id.toJson
  | getTreeString id => tagged "getTreeString" "id" id.toJson
  | getTree id => tagged "getTree" "id" id.toJson
  | takeTree id => tagged "takeTree" "id" id.toJson
  | releaseTree id => tagged "releaseTree" "id" id.toJson
  | getTreeCount => .object [("event", .string "getTreeCount")]
where
  tagged (event name : String) (content : Json) : Json :=
    .object [("event", .string event), ("value", .object [(name, content)])]

def fieldOfJson (variant name : String) (value : Json → Except DecodeError α) :
    Json → Except DecodeError α
  | .object members => Json.onlyField name value true none members
  | .broken members => Json.onlyField name value false none members
  | j => j.refuse s!"struct variant ParserEvent::{variant}"

def ofContent : Variant → Json → Except DecodeError Request
  | .parseCode, j => parseCode <$> fieldOfJson "ParseCode" "code" Json.toText j
  | .getParseString, j => getParseString <$> fieldOfJson "GetParseString" "id" Handle.ofJson j
  | .getTreeString, j => getTreeString <$> fieldOfJson "GetTreeString" "id" Handle.ofJson j
  | .getTree, j => getTree <$> fieldOfJson "GetTree" "id" Handle.ofJson j
  | .takeTree, j => takeTree <$> fieldOfJson "TakeTree" "id" Handle.ofJson j
  | .releaseTree, j => releaseTree <$> fieldOfJson "ReleaseTree" "id" Handle.ofJson j
  | .getTreeCount, .null => .ok getTreeCount
  | .getTreeCount, j => j.refuse "unit variant ParserEvent::GetTreeCount"

def format : Json.Tagged Variant Request where
  tag := "event"
  expected := "adjacently tagged enum ParserEvent"
  variants := variants
  absent
    | .getTreeCount => .ok getTreeCount
    | _ => .error (.missingField "value")
  content variant _ j := ofContent variant j

def encode (r : Request) : String :=
  r.toJson.render

def decode (text : String) : Except DecodeError Request :=
  Json.decodeText format.decode text

end Request

namespace Reply

inductive Variant where
  | parsed
  | treeString
  | tree
  | released
  | treeCount
deriving DecidableEq, Repr

def variants : List (String × Variant) :=
  [("parsed", .parsed), ("treeString", .treeString), ("tree", .tree), ("released", .released),
   ("treeCount", .treeCount)]

def parsedToJson (id : Handle) : Json :=
  .object [("id", id.toJson)]

def contentToJson : Reply → Json
  | parsed id => parsedToJson id
  | treeString none => .null
  | treeString (some text) => .string text
  | tree none => .null
  | tree (some trees) => ParseTree.listToJson trees
  | released was => .bool was
  | treeCount count => .nat count

def toJson (reply : Reply) : Json :=
  .object [("type", .string reply.name), ("value", reply.contentToJson)]

/-- Decodes the handle of a parse: an object with its only field, or an array of that field. -/
def parsedOfJson (access : Json.Access) : Json → Except DecodeError Handle
  | .object members => Json.onlyField "id" Handle.ofJson true none members
  | .broken members => Json.onlyField "id" Handle.ofJson false none members
  | .array items => do
    let id ← Handle.ofJson (← Json.itemAt items 0 "struct ParseCodeResult with 1 element")
    -- Only what is held can tell how many items there are.
    match access with
    | .held => Json.atMost items 1
    | .direct _ => if 1 < items.length then throw .malformed
    return id
  | j => j.refuse "struct ParseCodeResult"

def ofContent : Variant → Json.Access → Json → Except DecodeError Reply
  | .parsed, access, j => parsed <$> parsedOfJson access j
  | .treeString, _, j => treeString <$> j.toOption Json.toText
  | .tree, access, j => tree <$> j.toOption (ParseTree.listOfJson access)
  | .released, _, j => released <$> j.toBool
  | .treeCount, _, j => treeCount <$> j.toNatBelow UInt64.size "usize"

def format : Json.Tagged Variant Reply where
  tag := "type"
  expected := "adjacently tagged enum ParserResponse"
  variants := variants
  absent
    | .treeString => .ok (treeString none)
    | .tree => .ok (tree none)
    | _ => .error (.missingField "value")
  content := ofContent

def encode (reply : Reply) : String :=
  reply.toJson.render

def decode (text : String) : Except DecodeError Reply :=
  Json.decodeText format.decode text

end Reply

end TwinForest
