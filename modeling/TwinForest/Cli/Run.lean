import TwinForest.Cli.Options
import TwinForest.Pair.Navigation
import TwinForest.ParseTree.Document
import TwinForest.Text.Disarmed

/-!
# Commands

What comes of a command line, given what can be read from the paths: the exit code, the output, the
lines of the log and the error line.
-/

namespace TwinForest.Cli

structure Outcome where
  code : Nat
  stdout : String
  log : List String
  error : Option String
deriving DecidableEq, Repr

inductive Failure where
  | unreadable (path : String)
  | noTree (path : String)
  | fault (fault : Fault)
deriving DecidableEq, Repr

def Failure.message : Failure → String
  | unreadable path => s!"failed to read `{path}`"
  | noTree path => s!"`{path}` is not a raw syntax tree"
  | fault f => f.message

/-- The outcome of a failure. A fault ends the program out of turn. -/
def Outcome.ofFailure : Failure → Outcome
  | .fault _ => ⟨101, "", [], none⟩
  | failure => ⟨1, "", [], some s!"Error: {failure.message}"⟩

def readTrees (read : String → Option String) (path : String) :
    Except Failure (List ParseTree) :=
  match read path with
  | none => .error (.unreadable path)
  | some text =>
    match ParseTree.decode text with
    | .ok trees => .ok trees
    | .error _ => .error (.noTree path)

def ofFault (result : Except Fault α) : Except Failure α :=
  result.mapError Failure.fault

/-- What is told about an indexed pair when more is asked for. -/
def logOf (p : Pair) (before after : String) : List String :=
  let lhs := p.sideSize .lhs
  let rhs := p.sideSize .rhs
  let sizes := s!"lhs={lhs} rhs={rhs}"
  let message := s!"indexed `{before}` against `{after}`"
  [s!"DEBUG indexed syntax pair {sizes} classes={p.classes} unique={p.singles}",
   s!"INFO {Text.disarm message} {sizes}"]

def execute (read : String → Option String) (options : Options) : Except Failure Outcome := do
  match options.command with
  | .dump before after =>
    let left ← readTrees read before
    let right ← readTrees read after
    let pair ← ofFault (Pair.ofTrees left right)
    let log := if options.verbose then logOf pair before after else []
    return ⟨0, pair.dump, log, none⟩
  | .comments path =>
    let trees ← readTrees read path
    let (roots, b) := Builder.empty.buildAll trees
    let spans ← ofFault (b.nodes.commentPositions (← ofFault roots))
    return ⟨0, String.join (spans.map fun span => span.display ++ "\n"), [], none⟩

def usageText : String :=
  "Index syntax trees for structural diffing\n\n" ++
  "Usage: difftini [OPTIONS] <COMMAND>\n\n" ++
  "Commands:\n" ++
  "  dump BEFORE AFTER  Index two raw syntax trees (JSON) and print both sides\n" ++
  "  comments PATH      Print the comment spans of a raw syntax tree (JSON)\n\n" ++
  "Options:\n" ++
  "  -v, --verbose  Log indexing details to stderr\n" ++
  "  -h, --help     Print help\n" ++
  "  -V, --version  Print version\n"

def run (read : String → Option String) (args : List String) : Outcome :=
  match Invocation.ofArgs args with
  | .run options =>
    match execute read options with
    | .ok outcome => outcome
    | .error failure => Outcome.ofFailure failure
  | .version => ⟨0, "difftini 0.1.0\n", [], none⟩
  | .help => ⟨0, usageText, [], none⟩
  | .usage => ⟨2, "", [], some "error: invalid arguments"⟩

end TwinForest.Cli
