import Std.Data.HashMap
import TwinForest.Service.Message

/-!
# The worker of the parse service

The worker owns a parser and keeps every tree that the parser gives until the tree is taken or
released. Each tree is kept under a handle of its own.
-/

namespace TwinForest

inductive Parsed (σ : Type u) where
  | returned (trees : List ParseTree) (state : σ)
  /-- The call has not come to an end yet. -/
  | unfinished
  | crashed

/-- A parser, which may keep a state between its calls. -/
abbrev CodeParser (σ : Type u) := σ → String → Parsed σ

structure Worker (σ : Type u) where
  state : σ
  trees : Std.HashMap Handle (List ParseTree)
  /-- How many handles have been handed out. -/
  issued : Nat

namespace Worker

variable {σ : Type u}

def new (state : σ) : Worker σ :=
  ⟨state, ∅, 0⟩

inductive Outcome (σ : Type u) where
  | replied (reply : Reply) (worker : Worker σ)
  /-- The parser has not returned yet, so the request is still to be answered. -/
  | unfinished
  | crashed

def erase (w : Worker σ) (id : Handle) : Worker σ :=
  { w with trees := w.trees.erase id }

/-- Answers a request. A parse draws the next handle from the supply. -/
def handle (parse : CodeParser σ) (supply : Nat → Handle) (w : Worker σ) : Request → Outcome σ
  | .parseCode code =>
    match parse w.state code with
    | .returned trees state =>
      let id := supply w.issued
      .replied (.parsed id) ⟨state, w.trees.insert id trees, w.issued + 1⟩
    | .unfinished => .unfinished
    | .crashed => .crashed
  | .getParseString id | .getTreeString id =>
    .replied (.treeString (w.trees[id]?.map ParseTree.displayAll)) w
  | .getTree id => .replied (.tree w.trees[id]?) w
  | .takeTree id => .replied (.tree w.trees[id]?) (w.erase id)
  | .releaseTree id => .replied (.released (w.trees.contains id)) (w.erase id)
  | .getTreeCount => .replied (.treeCount w.trees.size) w

end Worker

end TwinForest
