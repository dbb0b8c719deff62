import TwinForest.Proofs.Normalization

/-!
# Text that building keeps

The lexemes of a tree are its delimiters and its atoms from left to right. What a builder drops and
collapses has no text: an atom that is left out is empty, and so are both delimiters of a list that is
its only child. So the lexemes with text are the same before and after, in the same order and with the
same positions, once every atom has lost its line terminator.
-/

namespace TwinForest

/-- A text of a tree together with the spans that it covers. -/
inductive Lexeme where
  | delimiter (delimiter : Delimiter)
  | atom (atom : Atom)
deriving DecidableEq, Repr

namespace Lexeme

def text : Lexeme → String
  | delimiter d => d.content
  | atom a => a.content

def trim : Lexeme → Lexeme
  | delimiter d => delimiter d
  | atom a => atom a.normalize

def visible (ls : List Lexeme) : List Lexeme :=
  ls.filter fun l => l.text ≠ ""

theorem visible_append (ls ms : List Lexeme) : visible (ls ++ ms) = visible ls ++ visible ms :=
  List.filter_append ls ms

theorem visible_singleton_of_empty {l : Lexeme} (h : l.text = "") : visible [l] = [] := by
  simp [visible, h]

end Lexeme

open Lexeme

/-! ## Parse trees -/

namespace ParseTree

mutual

def lexemes : ParseTree → List Lexeme
  | list opening children closing =>
    [.delimiter opening] ++ lexemesAll children ++ [.delimiter closing]
  | atom a => [.atom a]

def lexemesAll : List ParseTree → List Lexeme
  | [] => []
  | t :: ts => t.lexemes ++ lexemesAll ts

end

/-- A list that is its only child has lost two delimiters without text. -/
theorem visible_lexemes_collapse (opening closing : Delimiter) (ts : List ParseTree) :
    visible (collapse opening closing ts).lexemes =
      visible [.delimiter opening] ++ visible (lexemesAll ts) ++ visible [.delimiter closing] := by
  have hlist : visible (list opening ts closing).lexemes =
      visible [.delimiter opening] ++ visible (lexemesAll ts) ++ visible [.delimiter closing] := by
    rw [lexemes, visible_append, visible_append]
  unfold collapse
  split
  · split
    · rename_i t hempty
      have hopening : visible [.delimiter opening] = [] := visible_singleton_of_empty hempty.1
      have hclosing : visible [.delimiter closing] = [] := visible_singleton_of_empty hempty.2
      simp [hopening, hclosing, lexemesAll]
    · exact hlist
  · exact hlist

/-- The atoms that a list leaves out have no text. -/
theorem visible_lexemesAll_filter (ts : List ParseTree) :
    visible (lexemesAll (ts.filter fun t => !t.isEmptyAtom)) = visible (lexemesAll ts) := by
  induction ts with
  | nil => rfl
  | cons t ts ih =>
    rw [List.filter_cons]
    split
    · rw [lexemesAll, lexemesAll, visible_append, visible_append, ih]
    · rename_i hempty
      cases t with
      | list opening children closing => simp [isEmptyAtom] at hempty
      | atom a =>
        have htext : a.content = "" := by simpa [isEmptyAtom] using hempty
        have hatom : visible (ParseTree.atom a).lexemes = [] := visible_singleton_of_empty htext
        rw [lexemesAll, visible_append, hatom, ih, List.nil_append]

mutual

/-- A normal form has the lexemes with text of the tree, after its atoms are trimmed. -/
theorem visible_lexemes_normalize (t : ParseTree) :
    visible t.normalize.lexemes = visible (t.lexemes.map Lexeme.trim) := by
  cases t with
  | atom a => rfl
  | list opening children closing =>
    rw [normalize, visible_lexemes_collapse, visible_lexemesAll_filter,
      visible_lexemesAll_normalizeAll, lexemes, List.map_append, List.map_append, visible_append,
      visible_append]
    rfl

theorem visible_lexemesAll_normalizeAll (ts : List ParseTree) :
    visible (lexemesAll (normalizeAll ts)) = visible ((lexemesAll ts).map Lexeme.trim) := by
  cases ts with
  | nil => rfl
  | cons t ts =>
    rw [normalizeAll, lexemesAll, lexemesAll, List.map_append, visible_append, visible_append,
      visible_lexemes_normalize, visible_lexemesAll_normalizeAll]

end

end ParseTree

/-! ## Built trees -/

/-- The lexemes of a node around those of its children. -/
def Form.lexemes (inner : List Lexeme) : Form → List Lexeme
  | list opening closing _ => [.delimiter opening] ++ inner ++ [.delimiter closing]
  | atom a => [.atom a]

def Forest.lexemes : Forest Node → List Lexeme
  | .nil => []
  | .cons n children rest => n.form.lexemes children.lexemes ++ rest.lexemes

/-- Built trees have the lexemes of the trees that they read back as. -/
theorem Forest.lexemes_eq_parseTrees (f : Forest Node) :
    f.lexemes = ParseTree.lexemesAll f.parseTrees := by
  induction f with
  | nil => rfl
  | cons n children rest ihc ihr =>
    rw [lexemes, parseTrees, ParseTree.lexemesAll, ihc, ihr]
    cases n.form <;> rfl

/-- Parse trees can always be built, and what is stored for them, node by node under its own key, has
the lexemes with text of the parse trees in the same order, after their atoms are trimmed. -/
theorem Builder.build_keeps_lexemes {b : Builder} (hb : b.Reachable) (rs : List ParseTree) :
    ∃ ts b', b.buildAll rs = (.ok (ts.map Tree.key), b') ∧
      (∀ s ∈ (Forest.ofTrees ts).subtrees, b'.nodes.get? s.key = some s) ∧
      visible (Forest.ofTrees ts).lexemes = visible ((ParseTree.lexemesAll rs).map Lexeme.trim) := by
  obtain ⟨ts, b', hbuild, hbuilt, hread⟩ := Built.buildAll hb.sound rs
  refine ⟨ts, b', hbuild, hbuilt.stores_subtree, ?_⟩
  rw [Forest.lexemes_eq_parseTrees, Forest.parseTrees_ofTrees, hread, ← ParseTree.normalizeAll_eq_map,
    ParseTree.visible_lexemesAll_normalizeAll]

/-- A list that is left with one child and passes it up through another one, beside a comment that loses
its line feed and one of its spans. -/
theorem Builder.build_keeps_passed_lexemes :
    ∃ ts b', (empty.atom ⟨[], "x", .normal⟩).2.buildAll
        [.list ⟨[], ""⟩
          [.list ⟨[⟨0, 0, 0⟩], ""⟩
            [.atom ⟨[], "\r", .normal⟩, .list ⟨[⟨0, 0, 1⟩], "("⟩ [] ⟨[⟨0, 1, 2⟩], ")"⟩]
            ⟨[], ""⟩,
           .atom ⟨[], "\r", .string⟩]
          ⟨[], ""⟩,
         .atom ⟨[⟨1, 0, 3⟩, ⟨2, 0, 0⟩], "# c\n", .comment⟩] = (.ok (ts.map Tree.key), b') ∧
      (∀ s ∈ (Forest.ofTrees ts).subtrees, b'.nodes.get? s.key = some s) ∧
      visible (Forest.ofTrees ts).lexemes =
        [.delimiter ⟨[⟨0, 0, 1⟩], "("⟩, .delimiter ⟨[⟨0, 1, 2⟩], ")"⟩,
         .atom ⟨[⟨1, 0, 3⟩], "# c", .comment⟩] :=
  build_keeps_lexemes (.atom _ .empty) _

end TwinForest
