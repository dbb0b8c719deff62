import TwinForest.ParseTree.Basic
import TwinForest.Service.Error

/-!
# Messages of the parse service

What a caller asks of the parse service, and what it answers. A caller who knows which kind of reply
belongs to the request takes it apart by one of the conversions, which refuse all other kinds.
-/

namespace TwinForest

inductive Request where
  | parseCode (code : String)
  | getParseString (id : Handle)
  | getTreeString (id : Handle)
  | getTree (id : Handle)
  /-- Like `getTree`, but the tree is forgotten afterwards. -/
  | takeTree (id : Handle)
  | releaseTree (id : Handle)
  | getTreeCount
deriving DecidableEq, Repr

inductive Reply where
  | parsed (id : Handle)
  | treeString (text : Option String)
  | tree (trees : Option (List ParseTree))
  /-- Whether there was a tree to release. -/
  | released (was : Bool)
  | treeCount (count : Nat)
deriving Repr

namespace Reply

def name : Reply → String
  | parsed _ => "parsed"
  | treeString _ => "treeString"
  | tree _ => "tree"
  | released _ => "released"
  | treeCount _ => "treeCount"

def unexpected (reply : Reply) (expected : String) : ServiceError :=
  .unexpectedReply expected reply.name

def toParsed : Reply → Except ServiceError Handle
  | parsed id => .ok id
  | other => .error (other.unexpected "parsed")

def toTreeString : Reply → Except ServiceError (Option String)
  | treeString text => .ok text
  | other => .error (other.unexpected "treeString")

def toTree : Reply → Except ServiceError (Option (List ParseTree))
  | tree trees => .ok trees
  | other => .error (other.unexpected "tree")

def toReleased : Reply → Except ServiceError Bool
  | released was => .ok was
  | other => .error (other.unexpected "released")

def toTreeCount : Reply → Except ServiceError Nat
  | treeCount count => .ok count
  | other => .error (other.unexpected "treeCount")

end Reply

end TwinForest
