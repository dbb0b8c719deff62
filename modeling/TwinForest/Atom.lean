import TwinForest.Span
import TwinForest.Text.Blank

/-!
# Atoms and delimiters

The texts of a tree: atoms at its leaves, and the delimiters around its lists. Both know the spans
that they cover in the source. `Atom.trim` takes away the line terminator that a parser left on an
atom, and `Atom.normalizedContent` is the text by which two atoms are compared.
-/

namespace TwinForest

inductive AtomKind where
  | normal
  | string
  | type
  | comment
  | keyword
  | parseError
deriving DecidableEq, Repr, Inhabited

namespace AtomKind

def all : List AtomKind :=
  [normal, string, type, comment, keyword, parseError]

def name : AtomKind → String
  | normal => "normal"
  | string => "string"
  | type => "type"
  | comment => "comment"
  | keyword => "keyword"
  | parseError => "parse-error"

def ofName? (s : String) : Option AtomKind :=
  all.find? fun kind => kind.name == s

def ofName (s : String) : Except DecodeError AtomKind :=
  match ofName? s with
  | some kind => .ok kind
  | none => .error (.unknownVariant s (all.map name))

/-- Decodes a kind: its name, or an object with the name as its only member, which holds
nothing. -/
def ofJson : Json → Except DecodeError AtomKind
  | .string s => ofName s
  | .object [(s, j)] => do
    let kind ← ofName s
    match j with
    | .null | .object [] => return kind
    | j => j.refuse "unit"
  | .object members => .error (.invalidValue (.object members) "map with a single key")
  | j => j.refuse "string or map"

end AtomKind

structure Atom where
  position : List Span
  content : String
  kind : AtomKind
deriving DecidableEq, Repr

structure Delimiter where
  position : List Span
  content : String
deriving DecidableEq, Repr

/-- The text without its last character, if that is the given one. -/
def dropLastChar? (c : Char) (s : String) : Option String :=
  match s.toList.reverse with
  | [] => none
  | d :: ds => if d = c then some (String.ofList ds.reverse) else none

namespace Atom

def isBreak (c : Char) : Bool :=
  c = '\r' || c = '\n'

/-- The atom without one carriage return at its end. A comment then also loses one line feed,
together with the last of its spans. -/
def trim (a : Atom) : Atom :=
  let content := (dropLastChar? '\r' a.content).getD a.content
  match a.kind, dropLastChar? '\n' content with
  | .comment, some content => { a with content, position := a.position.dropLast }
  | _, _ => { a with content }

def lines (cs : List Char) : List (List Char) :=
  (cs.splitOnP isBreak).map Text.trimStart

/-- The text by which atoms are compared. The indentation of the lines of a comment, and the kind of
its line breaks, do not count. -/
def normalizedContent (a : Atom) : String :=
  if a.kind = .comment ∧ a.content.toList.any isBreak then
    String.ofList (List.intercalate ['\n'] (lines a.content.toList))
  else a.content

end Atom

end TwinForest
