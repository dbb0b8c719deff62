import TwinForest.Atom

/-!
# Parse trees

A tree as a parser gives it, before any normalisation, and how it is shown: as an s-expression on one
line. A file is a list of such trees.
-/

namespace TwinForest

inductive ParseTree where
  | list (opening : Delimiter) (children : List ParseTree) (closing : Delimiter)
  | atom (atom : Atom)
deriving Repr

namespace ParseTree

mutual

def displayChars : ParseTree → List Char
  | .list opening children closing =>
    "(list ".toList ++ Text.quoteChars opening.content.toList ++ displayChildren children
      ++ ' ' :: Text.quoteChars closing.content.toList ++ [')']
  | .atom a => '(' :: a.kind.name.toList ++ ' ' :: Text.quoteChars a.content.toList ++ [')']

/-- The characters of the children of a list, a blank before each. -/
def displayChildren : List ParseTree → List Char
  | [] => []
  | t :: ts => ' ' :: t.displayChars ++ displayChildren ts

end

def display (t : ParseTree) : String :=
  String.ofList t.displayChars

/-- Trees as s-expressions, one on each line. -/
def displayAll (ts : List ParseTree) : String :=
  "\n".intercalate (ts.map display)

end ParseTree

end TwinForest
