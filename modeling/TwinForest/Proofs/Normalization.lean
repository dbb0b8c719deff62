import TwinForest.Proofs.Building

/-!
# Normal forms of parse trees

What a builder stores for a parse tree is the normal form of the tree, which is a function of the tree
alone. Atoms lose their line terminator. Then, from the bottom up, lists lose the atoms that have no
text, and a list without delimiters around a single tree is that tree.

`ParseTree.normalize` is the normal form, and `Tree.parseTree` reads a built tree back.
-/

namespace TwinForest

/-! ## Normal forms -/

def dropEnd (c : Char) (cs : List Char) : List Char :=
  if cs.getLast? = some c then cs.dropLast else cs

/-- The atom without one carriage return at its end. If it is a comment and ends with a line feed
then, that goes as well, together with the last span. -/
def Atom.normalize (a : Atom) : Atom :=
  let text := dropEnd '\r' a.content.toList
  if a.kind = .comment ∧ text.getLast? = some '\n' then
    ⟨a.position.dropLast, String.ofList text.dropLast, a.kind⟩
  else ⟨a.position, String.ofList text, a.kind⟩

namespace ParseTree

def isEmptyAtom : ParseTree → Bool
  | list _ _ _ => false
  | atom a => a.content.isEmpty

/-- The list of the given trees, or the only one of them when there are no delimiters. -/
def collapse (opening closing : Delimiter) : List ParseTree → ParseTree
  | [t] => if opening.content = "" ∧ closing.content = "" then t else list opening [t] closing
  | ts => list opening ts closing

mutual

def normalize : ParseTree → ParseTree
  | list opening children closing =>
    collapse opening closing ((normalizeAll children).filter fun t => !t.isEmptyAtom)
  | atom a => atom a.normalize

def normalizeAll : List ParseTree → List ParseTree
  | [] => []
  | t :: ts => t.normalize :: normalizeAll ts

end

theorem normalizeAll_eq_map (ts : List ParseTree) : normalizeAll ts = ts.map normalize := by
  induction ts with
  | nil => rfl
  | cons t ts ih => rw [normalizeAll, ih, List.map_cons]

end ParseTree

/-! ## Trimmed atoms -/

theorem dropLastChar?_eq (c : Char) (s : String) :
    dropLastChar? c s =
      if s.toList.getLast? = some c then some (String.ofList s.toList.dropLast) else none := by
  unfold dropLastChar?
  split
  · rename_i h
    simp [List.reverse_eq_nil_iff.mp h]
  · rename_i d ds h
    have hs : s.toList = ds.reverse ++ [d] := by
      rw [← List.reverse_reverse s.toList, h, List.reverse_cons]
    simp [hs]

theorem Atom.trim_eq_normalize (a : Atom) : a.trim = a.normalize := by
  have htext : (dropLastChar? '\r' a.content).getD a.content =
      String.ofList (dropEnd '\r' a.content.toList) := by
    rw [dropLastChar?_eq, dropEnd]
    split <;> simp
  have hfeed := dropLastChar?_eq '\n' (String.ofList (dropEnd '\r' a.content.toList))
  rw [String.toList_ofList] at hfeed
  obtain ⟨position, content, kind⟩ := a
  simp only [trim, normalize, htext, hfeed]
  by_cases hlast : (dropEnd '\r' content.toList).getLast? = some '\n'
  · cases kind <;> simp [hlast]
  · cases kind <;> simp [hlast]

/-! ## Reading back -/

def Form.parseTree (children : List ParseTree) : Form → ParseTree
  | list opening closing _ => .list opening children closing
  | atom a => .atom a

def Forest.parseTrees : Forest Node → List ParseTree
  | .nil => []
  | .cons n children rest => n.form.parseTree children.parseTrees :: rest.parseTrees

def Tree.parseTree (t : Tree Node) : ParseTree :=
  t.label.form.parseTree t.children.parseTrees

theorem Forest.parseTrees_ofTrees (ts : List (Tree Node)) :
    (ofTrees ts).parseTrees = ts.map Tree.parseTree := by
  induction ts with
  | nil => rfl
  | cons t ts ih => rw [ofTrees, parseTrees, ih, List.map_cons, Tree.parseTree]

theorem Tree.isEmptyAtom_parseTree (t : Tree Node) :
    t.parseTree.isEmptyAtom = t.label.form.isEmptyAtom := by
  rw [Tree.parseTree]
  cases t.label.form <;> rfl

theorem Builder.map_parseTree_kept (ts : List (Tree Node)) :
    (kept ts).map Tree.parseTree = (ts.map Tree.parseTree).filter fun t => !t.isEmptyAtom := by
  rw [kept, List.filter_map]
  congr 2
  funext t
  simp [Tree.isEmptyAtom_parseTree]

namespace ParseTree

theorem collapse_singleton {opening closing : Delimiter} {t : ParseTree}
    (ho : opening.content = "") (hc : closing.content = "") : collapse opening closing [t] = t := by
  rw [collapse, if_pos ⟨ho, hc⟩]

theorem collapse_of_ne {opening closing : Delimiter} {ts : List ParseTree}
    (h : ∀ t, ts = [t] → ¬(opening.content = "" ∧ closing.content = "")) :
    collapse opening closing ts = list opening ts closing := by
  unfold collapse
  split
  · rename_i t
    rw [if_neg (h t rfl)]
  · rfl

end ParseTree

/-! ## Building -/

namespace Builder

variable {b b' : Builder} {ts : List (Tree Node)}

/-- A list of built trees reads back as the list of those that have text, collapsed. -/
theorem Built.list_parseTree (h : Built b b' ts) (opening closing : Delimiter) :
    ∃ t b'', b'.list opening closing (ts.map Tree.key) = (.ok t.key, b'') ∧ Built b b'' [t] ∧
      t.parseTree = .collapse opening closing
        ((ts.map Tree.parseTree).filter fun t => !t.isEmptyAtom) := by
  obtain ⟨t, b'', hlist, hbuilt, hshape⟩ := h.list opening closing
  refine ⟨t, b'', hlist, hbuilt, ?_⟩
  rw [← map_parseTree_kept]
  rcases hshape with ⟨hkept, ho, hc⟩ | ⟨hne, hform, hchildren⟩
  · rw [hkept]
    exact (ParseTree.collapse_singleton (by simpa using ho) (by simpa using hc)).symm
  · rw [ParseTree.collapse_of_ne, Tree.parseTree, hform, hchildren, Forest.parseTrees_ofTrees]
    · rfl
    · intro u hu hempty
      obtain ⟨v, hv, -⟩ := List.map_eq_singleton_iff.mp hu
      exact hne v hv (by simpa using hempty)

mutual

/-- A parse tree can be built, and the built tree reads back as its normal form. -/
theorem Built.build {b : Builder} (hb : b.Sound) (r : ParseTree) :
    ∃ t b', b.build r = (.ok t.key, b') ∧ Built b b' [t] ∧ t.parseTree = r.normalize := by
  cases r with
  | atom a =>
    refine ⟨_, _, rfl, .atom hb a, ?_⟩
    rw [Atom.trim_eq_normalize]
    rfl
  | list opening children closing =>
    obtain ⟨ts, b', hall, hbuilt, hread⟩ := Built.buildAll hb children
    obtain ⟨t, b'', hlist, hbuilt', hread'⟩ := hbuilt.list_parseTree opening closing
    refine ⟨t, b'', ?_, hbuilt', ?_⟩
    · rw [Builder.build, hall]
      exact hlist
    · rw [hread', hread, ParseTree.normalize, ParseTree.normalizeAll_eq_map]

theorem Built.buildAll {b : Builder} (hb : b.Sound) (rs : List ParseTree) :
    ∃ ts b', b.buildAll rs = (.ok (ts.map Tree.key), b') ∧ Built b b' ts ∧
      ts.map Tree.parseTree = rs.map ParseTree.normalize := by
  cases rs with
  | nil => exact ⟨[], b, rfl, .nil hb, rfl⟩
  | cons r rs =>
    obtain ⟨t, b', hone, hbuilt, hread⟩ := Built.build hb r
    obtain ⟨ts, b'', hall, hbuilt', hread'⟩ := Built.buildAll hbuilt.sound rs
    refine ⟨t :: ts, b'', ?_, hbuilt.append hbuilt', ?_⟩
    · rw [Builder.buildAll, hone]
      simp only [hall, List.map_cons]
    · rw [List.map_cons, hread, hread', List.map_cons]

end

/-- Building a parse tree never fails, changes nothing that was there before, and gives the key of
its normal form. Every node of that is found in the store at its own key. -/
theorem build_stores_normalize (hb : b.Reachable) (r : ParseTree) :
    ∃ key b' t, b.build r = (.ok key, b') ∧ b.Grows b' ∧ b'.nodes.get? key = some t ∧
      (∀ s ∈ t.subtrees, b'.nodes.get? s.key = some s) ∧ t.parseTree = r.normalize := by
  obtain ⟨t, b', hbuild, hbuilt, hread⟩ := Built.build hb.sound r
  refine ⟨t.key, b', t, hbuild, hbuilt.grows, hbuilt.stores t (by simp), ?_, hread⟩
  intro s hs
  refine hbuilt.stores_subtree s ?_
  simpa [Forest.subtrees_ofTrees] using hs

/-- A comment inside a list without delimiters, beside an atom of a lone carriage return. -/
theorem build_stores_lone_comment :
    ∃ key b' t,
      (empty.atom ⟨[], "x", .normal⟩).2.build
        (.list ⟨[⟨0, 0, 1⟩], ""⟩
          [.atom ⟨[], "\r", .normal⟩, .atom ⟨[⟨0, 0, 3⟩, ⟨1, 0, 0⟩], "# c\n", .comment⟩]
          ⟨[], ""⟩) = (.ok key, b') ∧
      (empty.atom ⟨[], "x", .normal⟩).2.Grows b' ∧ b'.nodes.get? key = some t ∧
      (∀ s ∈ t.subtrees, b'.nodes.get? s.key = some s) ∧
      t.parseTree = .atom ⟨[⟨0, 0, 3⟩], "# c", .comment⟩ :=
  build_stores_normalize (.atom _ .empty) _

end Builder

end TwinForest
