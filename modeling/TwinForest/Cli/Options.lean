/-!
# Command line options

The command line names a command with its paths. The option `-v` or `--verbose` may stand before the
command or after it, once at each place, `--` ends the options, and `-V` or `--version` before the
command asks for the version.
-/

namespace TwinForest.Cli

inductive Command where
  /-- Index two files and show both sides. -/
  | dump (before after : String)
  /-- Show the spans of the comments of a file. -/
  | comments (path : String)
deriving DecidableEq, Repr

def Command.paths : Command → List String
  | dump before after => [before, after]
  | comments path => [path]

structure Options where
  verbose : Bool
  command : Command
deriving DecidableEq, Repr

inductive Invocation where
  | run (options : Options)
  | version
  | help
  /-- The arguments make no sense. -/
  | usage
deriving DecidableEq, Repr

inductive Arg where
  /-- The end of the options. -/
  | separator
  /-- One-letter options, given together. -/
  | letters (letters : List Char)
  | word (name : String)
  | value (text : String)
deriving DecidableEq, Repr

/-- What an argument is. A single hyphen is a value. -/
def Arg.ofString (s : String) : Arg :=
  match s.toList with
  | ['-', '-'] => .separator
  | '-' :: '-' :: cs => .word (String.ofList cs)
  | ['-'] => .value s
  | '-' :: cs => .letters cs
  | _ => .value s

inductive Flag where
  | verbose
  | version
  | help
deriving DecidableEq, Repr

def Flag.ofLetter? : Char → Option Flag
  | 'v' => some .verbose
  | 'V' => some .version
  | 'h' => some .help
  | _ => none

def Flag.ofName? : String → Option Flag
  | "verbose" => some .verbose
  | "version" => some .version
  | "help" => some .help
  | _ => none

/-- What reading some options leads to: the end of reading, or whether to tell more. -/
abbrev Step := Except Invocation Bool

/-- Reads an option. The version is known only before the command, and telling more is asked for at
most once at each place. -/
def Flag.apply (beforeCommand verbose : Bool) : Option Flag → Step
  | some .verbose => if verbose then .error .usage else .ok true
  | some .version => if beforeCommand then .error .version else .error .usage
  | some .help => .error .help
  | none => .error .usage

def readLetters (beforeCommand verbose : Bool) : List Char → Step
  | [] => .ok verbose
  | c :: cs => do readLetters beforeCommand (← Flag.apply beforeCommand verbose (Flag.ofLetter? c)) cs

/-- Reads the arguments after the name of a command: its values in order, and whether to tell more.
No more values than the command has are taken. -/
def readValues (limit : Nat) (verbose : Bool) (values : List String) :
    List String → Except Invocation (Bool × List String)
  | [] => .ok (verbose, values)
  | arg :: args =>
    match Arg.ofString arg with
    | .separator =>
      if values.length + args.length ≤ limit then .ok (verbose, values ++ args) else .error .usage
    | .letters letters => do readValues limit (← readLetters false verbose letters) values args
    | .word name => do
      readValues limit (← Flag.apply false verbose (Flag.ofName? name)) values args
    | .value value =>
      if values.length < limit then readValues limit verbose (values ++ [value]) args
      else .error .usage

def readCommand (verbose : Bool) (name : String) (args : List String) :
    Except Invocation Options := do
  match name with
  | "dump" =>
    match ← readValues 2 false [] args with
    | (more, [before, after]) => return ⟨verbose || more, .dump before after⟩
    | _ => throw .usage
  | "comments" =>
    match ← readValues 1 false [] args with
    | (more, [path]) => return ⟨verbose || more, .comments path⟩
    | _ => throw .usage
  | "help" =>
    match args with
    | [] | ["dump"] | ["comments"] | ["help"] => throw .help
    | _ => throw .usage
  | _ => throw .usage

def readArgs (verbose : Bool) : List String → Except Invocation Options
  | [] => .error .usage
  | arg :: args =>
    match Arg.ofString arg with
    | .separator => .error .usage
    | .letters letters => do readArgs (← readLetters true verbose letters) args
    | .word name => do readArgs (← Flag.apply true verbose (Flag.ofName? name)) args
    | .value name => readCommand verbose name args

def Invocation.ofArgs (args : List String) : Invocation :=
  match readArgs false args with
  | .ok options => .run options
  | .error invocation => invocation

end TwinForest.Cli
