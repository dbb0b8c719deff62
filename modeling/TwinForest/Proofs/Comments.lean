import TwinForest.Cli.Run
import TwinForest.Proofs.Independence
import TwinForest.Proofs.Lexemes
import TwinForest.Proofs.NormalForest

/-!
# Comments of a file

Which comments a file has can be told from its parse trees: they are its atoms that are comments, from left
to right, each with the spans that are left when its line terminator is gone. Only a comment without text
can get lost, and only inside a list, since lists drop it and roots do not. The same spans are found in
the store that is built for the file, on whichever side of a pair the file is, and along a walk over that
side.
-/

namespace TwinForest

open Lexeme

def Lexeme.commentPositions : Lexeme → List Span
  | delimiter _ => []
  | atom a => if a.kind = .comment then a.position else []

namespace ParseTree

def isAtom : ParseTree → Bool
  | list _ _ _ => false
  | atom _ => true

/-- The spans of the comments of a tree of a file from left to right, after they are trimmed. Comments
without text are left out, unless one is the tree itself. -/
def commentPositions (t : ParseTree) : List Span :=
  ((t.lexemes.map Lexeme.trim).filter fun l => t.isAtom ∨ l.text ≠ "").flatMap
    Lexeme.commentPositions

/-- A list drops its atoms without text before it may become its only child. -/
theorem isEmptyAtom_normalize_list (opening closing : Delimiter) (ts : List ParseTree) :
    (list opening ts closing).normalize.isEmptyAtom = false := by
  rw [normalize]
  unfold collapse
  split
  · rename_i t hone
    split
    · have ht : t ∈ (normalizeAll ts).filter fun t => !t.isEmptyAtom := by simp [hone]
      simpa using (List.mem_filter.mp ht).2
    · rfl
  · rfl

end ParseTree

/-! ## Built trees -/

/-- Where no atom is without text and none has children, the comments among the lexemes with text are
those that the nodes have in pre-order. -/
theorem Forest.flatMap_visible_lexemes {f : Forest Node}
    (htext : ∀ t ∈ f.subtrees, t.label.form.isEmptyAtom = false)
    (hleaf : ∀ t ∈ f.subtrees, ∀ a, t.label.form = .atom a → t.children = .nil) :
    (visible f.lexemes).flatMap Lexeme.commentPositions =
      f.preorder.flatMap (·.form.commentPositions) := by
  induction f with
  | nil => rfl
  | cons n children rest ihc ihr =>
    simp only [subtrees, List.forall_mem_cons, List.forall_mem_append] at htext hleaf
    obtain ⟨hn, htc, htr⟩ := htext
    obtain ⟨hatom, hlc, hlr⟩ := hleaf
    rw [lexemes, visible_append, List.flatMap_append, ihr htr hlr, preorder, List.flatMap_cons,
      List.flatMap_append, ← List.append_assoc]
    congr 1
    cases hform : n.form with
    | list opening closing count =>
      have hdelimiter : ∀ d, (visible [.delimiter d]).flatMap Lexeme.commentPositions = [] := by
        intro d
        by_cases hd : d.content = "" <;> simp [visible, text, hd, Lexeme.commentPositions]
      rw [Form.lexemes, visible_append, visible_append, List.flatMap_append, List.flatMap_append,
        hdelimiter, hdelimiter, ihc htc hlc]
      simp [Form.commentPositions]
    | atom a =>
      have hcontent : a.content ≠ "" := by simpa [hform, Form.isEmptyAtom] using hn
      obtain rfl : children = .nil := hatom a hform
      simp [Form.lexemes, visible, text, hcontent, Lexeme.commentPositions, Form.commentPositions,
        preorder]

theorem Nodes.flatMap_commentsOf (ts : List (Tree Node)) :
    ts.flatMap commentsOf = (Forest.ofTrees ts).preorder.flatMap (·.form.commentPositions) := by
  induction ts with
  | nil => rfl
  | cons t ts ih => simp [commentsOf, commentsOnto_eq, Forest.ofTrees, Forest.preorder, ih]

namespace Builder.Normalizing

variable {b : Builder} {t : Tree Node}

theorem children_of_atom (h : b.Normalizing) (ht : b.nodes.Stores t) {a : Atom}
    (hform : t.label.form = .atom a) : t.children = .nil := by
  have hleaf := (h.normal ht).leaf hform
  rw [Tree.childKeys_eq, List.map_eq_nil_iff] at hleaf
  rw [← Forest.ofTrees_trees t.children, hleaf]
  rfl

/-- Nothing below a node is an atom without text. -/
theorem text_below (h : b.Normalizing) (ht : b.nodes.Stores t) :
    ∀ s ∈ t.children.subtrees, s.label.form.isEmptyAtom = false := by
  have hchild : ∀ s, b.nodes.Stores s → ∀ c ∈ s.children.trees,
      b.nodes.Stores c ∧ c.label.form.isEmptyAtom = false := by
    intro s hs c hc
    refine ⟨h.sound.coherent.stores_child hs c hc, (h.normal hs).text c.label ?_⟩
    rw [Forest.roots_eq_map_trees]
    exact List.mem_map_of_mem hc
  intro s hs
  exact (Forest.forall_subtrees (hchild t ht) (fun s hs => hchild s hs.1) s hs).2

/-- A built tree has the comments of the parse tree that it was built for. -/
theorem commentsOf_eq (h : b.Normalizing) (ht : b.nodes.Stores t) {r : ParseTree}
    (hread : t.parseTree = r.normalize) : Nodes.commentsOf t = r.commentPositions := by
  have hone : Nodes.commentsOf t =
      (Forest.ofTrees [t]).preorder.flatMap (·.form.commentPositions) := by
    rw [← Nodes.flatMap_commentsOf, List.flatMap_singleton]
  have hleaf : ∀ s ∈ (Forest.ofTrees [t]).subtrees, ∀ a, s.label.form = .atom a →
      s.children = .nil := fun s hs a =>
    h.children_of_atom (h.sound.coherent.stores_subtree (by simpa using ht) s hs)
  -- Only an atom can be a tree without text, and then there is nothing below it.
  cases r with
  | list opening children closing =>
    have htext : ∀ s ∈ (Forest.ofTrees [t]).subtrees, s.label.form.isEmptyAtom = false := by
      simp only [Forest.ofTrees, Forest.subtrees, List.append_nil, List.forall_mem_cons]
      refine ⟨?_, h.text_below ht⟩
      rw [← Tree.isEmptyAtom_parseTree, hread]
      exact ParseTree.isEmptyAtom_normalize_list opening closing children
    have hlexemes : visible (Forest.ofTrees [t]).lexemes =
        visible ((ParseTree.list opening children closing).lexemes.map Lexeme.trim) := by
      rw [Forest.lexemes_eq_parseTrees, Forest.parseTrees_ofTrees, List.map_singleton, hread,
        ParseTree.lexemesAll, ParseTree.lexemesAll, List.append_nil,
        ParseTree.visible_lexemes_normalize]
    rw [hone, ← Forest.flatMap_visible_lexemes htext hleaf, hlexemes]
    simp [ParseTree.commentPositions, ParseTree.isAtom, visible]
  | atom a =>
    have hform : t.label.form = .atom a.normalize := by
      rw [Tree.parseTree] at hread
      cases hform : t.label.form with
      | list opening closing count => simp [hform, Form.parseTree, ParseTree.normalize] at hread
      | atom a' =>
        rw [hform] at hread
        exact congrArg Form.atom (ParseTree.atom.inj hread)
    rw [Nodes.commentsOf, h.children_of_atom ht hform, hform]
    simp [Form.commentPositions, Nodes.commentsOnto, ParseTree.commentPositions, ParseTree.isAtom,
      ParseTree.lexemes, Lexeme.trim, Lexeme.commentPositions]

/-- Built trees have the comments of the parse trees that they were built for, in the same order. -/
theorem flatMap_commentsOf (h : b.Normalizing) {ts : List (Tree Node)} {rs : List ParseTree}
    (hts : ∀ t ∈ ts, b.nodes.Stores t)
    (hread : ts.map Tree.parseTree = rs.map ParseTree.normalize) :
    ts.flatMap Nodes.commentsOf = rs.flatMap ParseTree.commentPositions := by
  induction ts generalizing rs with
  | nil =>
    obtain rfl := List.map_eq_nil_iff.mp hread.symm
    rfl
  | cons t ts ih =>
    obtain ⟨ht, hts⟩ := List.forall_mem_cons.mp hts
    obtain ⟨r, rs, rfl, hone, hall⟩ := List.map_eq_cons_iff.mp hread.symm
    rw [List.flatMap_cons, List.flatMap_cons, h.commentsOf_eq ht hone.symm, ih hts hall.symm]

end Builder.Normalizing

/-! ## Pairs -/

namespace Pair

variable {p : Pair} {nodes : Nodes} {lhs rhs : List (Tree Node)}

theorem Indexes.map_built_roots (h : p.Indexes nodes lhs rhs) (side : Side) :
    (p.roots side).map Tree.built = side.pick lhs rhs := by
  rw [roots, ← Forest.trees_built, h.built_forest, Forest.trees_ofTrees]

/-- A walk over a side meets the comments of its roots. -/
theorem Indexes.flatMap_walk (h : p.Indexes nodes lhs rhs) (side : Side) :
    (p.walk side).flatMap (·.label.node.form.commentPositions) =
      (side.pick lhs rhs).flatMap Nodes.commentsOf := by
  have hwalk := p.map_label_walk side fun n => n.node
  change _ = (p.forest side).built.preorder at hwalk
  rw [Nodes.flatMap_commentsOf, ← h.built_forest, ← hwalk, List.flatMap_map]

/-- The comments of two files on the sides of their pair. -/
theorem exists_ofTrees_comments (before after : List ParseTree) :
    ∃ p, ofTrees before after = .ok p ∧ ∀ side,
      p.commentPositions side =
        .ok ((side.pick before after).flatMap ParseTree.commentPositions) ∧
      (p.walk side).flatMap (·.label.node.form.commentPositions) =
        (side.pick before after).flatMap ParseTree.commentPositions := by
  obtain ⟨lhs, b, hbefore, hbuilt, hread⟩ :=
    Builder.Built.buildAll Builder.Reachable.empty.sound before
  obtain ⟨p, b', rhs, hp, hb, h, hread'⟩ := exists_ofTrees_built hbefore hbuilt after
  refine ⟨p, hp, fun side => ?_⟩
  have hreads : (side.pick lhs rhs).map Tree.parseTree =
      (side.pick before after).map ParseTree.normalize := by
    cases side with
    | lhs => exact hread
    | rhs => exact hread'
  rw [h.commentPositions_eq hb.sound.coherent, h.map_built_roots, h.flatMap_walk,
    hb.normalizing.flatMap_commentsOf (h.stores_side side) hreads]
  exact ⟨rfl, rfl⟩

end Pair

/-! ## Files -/

/-- The comments of a file in the store that is built for it alone. -/
theorem Builder.exists_comments (ts : List ParseTree) :
    ∃ roots b, empty.buildAll ts = (.ok roots, b) ∧
      b.nodes.commentPositions roots = .ok (ts.flatMap ParseTree.commentPositions) := by
  obtain ⟨built, b, hbuild, hbuilt, hread⟩ := Built.buildAll Reachable.empty.sound ts
  have hb : b.Reachable := by simpa only [hbuild] using Reachable.empty.buildAll ts
  refine ⟨_, b, hbuild, ?_⟩
  rw [Nodes.commentPositions_map_key hbuilt.stores,
    hb.normalizing.flatMap_commentsOf hbuilt.stores hread]

/-- The comments of a file are what its parse trees tell. The command for comments shows them, a span on
each line, for every file that it can read; they are found below the roots that are built for the file
alone; and with any other file, before it or after it, they are the comments on its side of the pair and
those that a walk over this side meets. -/
theorem ParseTree.commentPositions_of_file (ts us : List ParseTree) :
    (∀ read verbose path, Cli.execute read ⟨verbose, .comments path⟩ =
      (Cli.readTrees read path).map fun trees =>
        ⟨0, String.join ((trees.flatMap commentPositions).map fun span => span.display ++ "\n"), [],
          none⟩) ∧
    (∃ roots b, Builder.empty.buildAll ts = (.ok roots, b) ∧
      b.nodes.commentPositions roots = .ok (ts.flatMap commentPositions)) ∧
    (∃ p, Pair.ofTrees ts us = .ok p ∧
      p.commentPositions .lhs = .ok (ts.flatMap commentPositions) ∧
      (p.walk .lhs).flatMap (·.label.node.form.commentPositions) = ts.flatMap commentPositions) ∧
    ∃ p, Pair.ofTrees us ts = .ok p ∧
      p.commentPositions .rhs = .ok (ts.flatMap commentPositions) ∧
      (p.walk .rhs).flatMap (·.label.node.form.commentPositions) = ts.flatMap commentPositions := by
  refine ⟨fun read verbose path => ?_, Builder.exists_comments ts, ?_, ?_⟩
  · cases hread : Cli.readTrees read path with
    | error failure => simp [Cli.execute, hread, bind, Except.bind, Except.map]
    | ok trees =>
      obtain ⟨roots, b, hbuild, hspans⟩ := Builder.exists_comments trees
      simp [Cli.execute, hread, hbuild, hspans, Cli.ofFault, Except.mapError, bind, Except.bind,
        Except.map, pure, Except.pure]
  · obtain ⟨p, hp, hsides⟩ := Pair.exists_ofTrees_comments ts us
    exact ⟨p, hp, hsides .lhs⟩
  · obtain ⟨p, hp, hsides⟩ := Pair.exists_ofTrees_comments us ts
    exact ⟨p, hp, hsides .rhs⟩

/-- A comment of a lone line feed counts as a root but not in a list, even where the list has no
delimiters and gets lost as well. -/
theorem ParseTree.commentPositions_of_lone_breaks :
    ∃ p, Pair.ofTrees [.atom ⟨[⟨0, 0, 0⟩, ⟨1, 0, 0⟩], "\n", .comment⟩,
        .list ⟨[], ""⟩ [.atom ⟨[⟨2, 0, 0⟩, ⟨3, 0, 0⟩], "\n", .comment⟩,
          .atom ⟨[⟨4, 0, 2⟩], "# ", .comment⟩] ⟨[], ""⟩] [.atom ⟨[], "x", .normal⟩] = .ok p ∧
      p.commentPositions .lhs = .ok [⟨0, 0, 0⟩, ⟨4, 0, 2⟩] := by
  obtain ⟨-, -, ⟨p, hp, hspans, -⟩, -⟩ := commentPositions_of_file
    [.atom ⟨[⟨0, 0, 0⟩, ⟨1, 0, 0⟩], "\n", .comment⟩,
      .list ⟨[], ""⟩ [.atom ⟨[⟨2, 0, 0⟩, ⟨3, 0, 0⟩], "\n", .comment⟩,
        .atom ⟨[⟨4, 0, 2⟩], "# ", .comment⟩] ⟨[], ""⟩]
    [.atom ⟨[], "x", .normal⟩]
  exact ⟨p, hp, hspans.trans (congrArg Except.ok (by decide))⟩

end TwinForest
