import TwinForest.Duration
import TwinForest.Handle

/-!
# Failures of the parse service

What a caller of the parse service may be told instead of an answer.
-/

namespace TwinForest

inductive ServiceError where
  | timeout (limit : Duration)
  | disconnected
  | unexpectedReply (expected found : String)
  | unknownHandle (handle : Handle)
  | spawnFailed
deriving DecidableEq, Repr

def ServiceError.message : ServiceError → String
  | timeout limit => s!"parser did not respond within {limit.display}"
  | disconnected => "parser worker is not running"
  | unexpectedReply expected found =>
    s!"expected a `{expected}` response from the parser, found `{found}`"
  | unknownHandle handle => s!"parser has no tree for handle {handle.display}"
  | spawnFailed => "failed to spawn the parser worker"

end TwinForest
