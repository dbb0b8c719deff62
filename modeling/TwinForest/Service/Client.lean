import TwinForest.Pair.Basic
import TwinForest.Service.Host

/-!
# Calls of the parse service

Each call sends a request, waits for the reply and takes it for the kind of reply that belongs to the
request. A call that fails leaves the host as it got it so far. Several calls make up `buildPair`, which
parses two texts and indexes them as a pair.
-/

namespace TwinForest

/-- A computation against a host, which keeps the host when it fails. -/
abbrev Client (σ : Type) := ExceptT ServiceError (StateM (Host σ))

namespace Client

variable {σ α : Type}

def ofResult (result : Except ServiceError α) : Client σ α :=
  fun h => (result, h)

def send (request : Request) : Client σ Ticket :=
  fun h => h.send request

def wait (svc : Service σ) (ticket : Ticket) : Client σ Reply :=
  fun h => h.wait svc ticket

def request (svc : Service σ) (r : Request) : Client σ Reply := do
  wait svc (← send r)

def parseCode (svc : Service σ) (code : String) : Client σ Handle := do
  ofResult (← request svc (.parseCode code)).toParsed

def parseString (svc : Service σ) (id : Handle) : Client σ (Option String) := do
  ofResult (← request svc (.getParseString id)).toTreeString

def treeString (svc : Service σ) (id : Handle) : Client σ (Option String) := do
  ofResult (← request svc (.getTreeString id)).toTreeString

def tree (svc : Service σ) (id : Handle) : Client σ (Option (List ParseTree)) := do
  ofResult (← request svc (.getTree id)).toTree

/-- The tree behind a handle, which the worker then forgets. -/
def takeTree (svc : Service σ) (id : Handle) : Client σ (Option (List ParseTree)) := do
  ofResult (← request svc (.takeTree id)).toTree

def release (svc : Service σ) (id : Handle) : Client σ Bool := do
  ofResult (← request svc (.releaseTree id)).toReleased

def treeCount (svc : Service σ) : Client σ Nat := do
  ofResult (← request svc .getTreeCount).toTreeCount

def known (id : Handle) : Option (List ParseTree) → Client σ (List ParseTree)
  | some trees => pure trees
  | none => throw (.unknownHandle id)

def expectTree (svc : Service σ) (id : Handle) : Client σ (List ParseTree) := do
  known id (← tree svc id)

/-- Waits for a parse and takes its tree from the worker. -/
def takeParsed (svc : Service σ) (ticket : Ticket) : Client σ (List ParseTree) := do
  let id ← ofResult (← wait svc ticket).toParsed
  known id (← takeTree svc id)

/-- Both parses are asked for before either is waited for, and the trees are taken one after the other.
Once both are taken, the worker keeps nothing for the pair. A call that fails before, as when the time is
over, leaves behind what it has not taken. -/
def buildPair (svc : Service σ) (before after : String) : Client σ (Except Fault Pair) := do
  let first ← send (.parseCode before)
  let second ← send (.parseCode after)
  let before ← takeParsed svc first
  let after ← takeParsed svc second
  return Pair.ofTrees before after

end Client

end TwinForest
