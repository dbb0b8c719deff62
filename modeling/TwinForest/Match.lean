import TwinForest.Atom

/-!
# Matches

What a comparison says about the positions of a source, as it is handed to whatever shows it.
-/

namespace TwinForest

inductive TokenKind where
  | delimiter
  | atom (kind : AtomKind)
deriving DecidableEq, Repr

/-- How a position matches the other side. -/
inductive MatchKind where
  | unchangedToken (highlight : TokenKind) (own opposite : List Span)
  | novel (highlight : TokenKind)
  | novelLinePart (highlight : TokenKind) (own opposite : List Span)
  | novelWord (highlight : TokenKind)
  | ignored (highlight : TokenKind)
deriving DecidableEq, Repr

structure MatchedPos where
  kind : MatchKind
  pos : Span
deriving DecidableEq, Repr

def TokenKind.toJson : TokenKind → Json
  | delimiter => .object [("type", .string "delimiter")]
  | atom kind => .object [("type", .string "atom"), ("kind", .string kind.name)]

namespace MatchKind

def highlight : MatchKind → TokenKind
  | unchangedToken highlight _ _ => highlight
  | novel highlight => highlight
  | novelLinePart highlight _ _ => highlight
  | novelWord highlight => highlight
  | ignored highlight => highlight

/-- Whether the position belongs to one side only. -/
def isNovel : MatchKind → Bool
  | novel _ | novelWord _ | novelLinePart _ _ _ => true
  | unchangedToken _ _ _ | ignored _ => false

def name : MatchKind → String
  | unchangedToken _ _ _ => "unchanged-token"
  | novel _ => "novel"
  | novelLinePart _ _ _ => "novel-line-part"
  | novelWord _ => "novel-word"
  | ignored _ => "ignored"

def positionsToJson : MatchKind → List (String × Json)
  | unchangedToken _ own opposite | novelLinePart _ own opposite =>
    [("selfPos", Span.listToJson own), ("oppositePos", Span.listToJson opposite)]
  | novel _ | novelWord _ | ignored _ => []

def toJson (m : MatchKind) : Json :=
  .object
    ([("type", .string m.name), ("highlight", m.highlight.toJson)] ++ m.positionsToJson)

end MatchKind

def MatchedPos.toJson (m : MatchedPos) : Json :=
  .object [("kind", m.kind.toJson), ("pos", m.pos.toJson)]

end TwinForest
