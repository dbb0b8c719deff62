import TwinForest.Match
import TwinForest.Pair.Navigation
import TwinForest.Text.Inspect

/-!
# Inspection of the domain

Every type of the domain in full, on one line.
-/

namespace TwinForest

def Span.inspect (s : Span) : String :=
  Inspect.record "SingleLineSpan"
    [("line", toString s.line.toNat), ("start_col", toString s.startCol.toNat),
     ("end_col", toString s.endCol.toNat)]

def Span.inspectList (spans : List Span) : String :=
  Inspect.sequence (spans.map Span.inspect)

def AtomKind.inspect : AtomKind → String
  | normal => "Normal"
  | string => "String"
  | type => "Type"
  | comment => "Comment"
  | keyword => "Keyword"
  | parseError => "ParseError"

def TokenKind.inspect : TokenKind → String
  | delimiter => "Delimiter"
  | atom kind => Inspect.record "Atom" [("kind", kind.inspect)]

def MatchKind.inspect (m : MatchKind) : String :=
  let highlight := ("highlight", m.highlight.inspect)
  let positions (own opposite : List Span) :=
    [highlight, ("self_pos", Span.inspectList own), ("opposite_pos", Span.inspectList opposite)]
  match m with
  | unchangedToken _ own opposite => Inspect.record "UnchangedToken" (positions own opposite)
  | novel _ => Inspect.record "Novel" [highlight]
  | novelLinePart _ own opposite => Inspect.record "NovelLinePart" (positions own opposite)
  | novelWord _ => Inspect.record "NovelWord" [highlight]
  | ignored _ => Inspect.record "Ignored" [highlight]

def MatchedPos.inspect (m : MatchedPos) : String :=
  Inspect.record "MatchedPos" [("kind", m.kind.inspect), ("pos", m.pos.inspect)]

/-- What a node is, in full, with the keys of its children. -/
def Form.inspect (children : List Key) : Form → String
  | list opening closing descendants =>
    let fields :=
      [("open_position", Span.inspectList opening.position),
       ("open_content", Text.quote opening.content),
       ("children", Inspect.sequence (children.map Key.display)),
       ("close_position", Span.inspectList closing.position),
       ("close_content", Text.quote closing.content),
       ("num_descendants", toString descendants)]
    Inspect.tuple "List" [Inspect.record "List" fields]
  | atom a =>
    let fields :=
      [("position", Span.inspectList a.position), ("content", Text.quote a.content),
       ("kind", a.kind.inspect)]
    Inspect.tuple "Atom" [Inspect.record "Atom" fields]

def Linked.inspect (t : Tree Linked) : String :=
  let children := t.children.roots.map (·.node.key)
  Inspect.record "SyntaxRef"
    [("id", Inspect.record "SyntaxId" [("raw", toString t.label.id)]),
     ("content_id", Inspect.record "ContentId" [("raw", toString t.label.contentId)]),
     ("syntax", t.label.node.form.inspect children)]

def Store.inspect (s : Store String) : String :=
  Inspect.record "Arena" [("items", Inspect.sequence (s.items.toList.map Text.quote))]

end TwinForest
