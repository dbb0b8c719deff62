import TwinForest.Proofs.Preorder
import TwinForest.Proofs.Rows

/-!
# The node before a node

Every node is linked to a node before it: the sibling before it, or its parent when there is none. A
walk comes to the node from elsewhere, namely from the last node below that sibling. The two agree
where nothing lies below the sibling, and nowhere else.
-/

namespace TwinForest

namespace Forest

variable {α : Type u} {f : Forest α} {t : Tree α}

/-- The roots before a tree come before it with all that lies below them. -/
theorem subtrees_of_trees_eq {before after : List (Tree α)} (h : f.trees = before ++ t :: after) :
    f.subtrees =
      (ofTrees before).subtrees ++ t :: (t.children.subtrees ++ (ofTrees after).subtrees) := by
  rw [← ofTrees_trees f, h, ofTrees_append, subtrees_append]
  rfl

/-- A subtree has fewer nodes below it than there are in the forest. -/
theorem size_children_lt (ht : t ∈ f.subtrees) : t.children.size < f.size := by
  induction f with
  | nil => cases ht
  | cons a children rest ihc ihr =>
    simp only [subtrees, List.mem_cons, List.mem_append] at ht
    simp only [size]
    rcases ht with rfl | ht | ht
    · change children.size < _
      omega
    · have := ihc ht
      omega
    · have := ihr ht
      omega

/-- The last node of a forest is the last one of its last tree. -/
theorem getLast?_subtrees_concat (ts : List (Tree α)) (t : Tree α) :
    (ofTrees (ts ++ [t])).subtrees.getLast? = t.subtrees.getLast? := by
  have htree : (ofTrees [t]).subtrees = t.subtrees := by simp [subtrees_ofTrees]
  rw [ofTrees_append, subtrees_append, htree, Tree.subtrees, List.getLast?_append,
    List.getLast?_cons]
  rfl

theorem subtrees_eq_nil_iff : f.subtrees = [] ↔ f.trees = [] := by
  cases f <;> simp [subtrees, trees]

end Forest

/-- The last node of a tree is its root only if nothing lies below it. -/
theorem Tree.getLast?_subtrees_eq_iff {α : Type u} (t : Tree α) :
    t.subtrees.getLast? = some t ↔ t.children.trees = [] := by
  rw [← Forest.subtrees_eq_nil_iff, Tree.subtrees, List.getLast?_cons]
  cases hlast : t.children.subtrees.getLast? with
  | none => simpa using hlast
  | some s =>
    have hs : s ∈ t.children.subtrees := List.mem_of_getLast? hlast
    have hne : s ≠ t := by
      rintro rfl
      exact Nat.lt_irrefl _ (Forest.size_children_lt hs)
    simp [hne, List.ne_nil_of_mem hs]

namespace Pair

variable {p : Pair} {nodes : Nodes} {lhs rhs : List (Tree Node)} {side : Side}
variable {above : Option (Tree Linked)} {before after visited rest : List (Tree Linked)}
variable {t : Tree Linked}

/-- A walk comes to a node from its parent, through all that lies below the siblings before it. -/
theorem Stands.exists_visited (h : p.Stands side above before t after) :
    ∃ visited rest, p.walk side = visited ++ t :: rest ∧
      visited.getLast? = ((Forest.ofTrees before).subtrees.getLast? <|> above) := by
  rw [walk, Forest.walk_eq_subtrees]
  cases above with
  | none => exact ⟨_, _, Forest.subtrees_of_trees_eq h.row_eq, by simp⟩
  | some u =>
    obtain ⟨earlier, later, hsplit⟩ :=
      Forest.subtrees_infix (Pair.mem_walk.mp (h.above_mem u rfl))
    refine ⟨earlier ++ u :: (Forest.ofTrees before).subtrees,
      t.children.subtrees ++ (Forest.ofTrees after).subtrees ++ later, ?_, ?_⟩
    · rw [← hsplit, Tree.subtrees, Forest.subtrees_of_trees_eq h.row_eq]
      simp
    · rw [List.getLast?_append, List.getLast?_cons]
      cases (Forest.ofTrees before).subtrees.getLast? <;> rfl

namespace Indexes

/-- A walk meets a node once. -/
theorem notMem_visited (h : p.Indexes nodes lhs rhs) (hwalk : p.walk side = visited ++ t :: rest) :
    t ∉ visited ∧ t ∉ rest := by
  have hnodup : (visited ++ t :: rest).Nodup := hwalk ▸ (h.nodup_walk side).of_map
  obtain ⟨-, hrest, hapart⟩ := List.nodup_append.mp hnodup
  exact ⟨fun hmem => hapart t hmem t List.mem_cons_self rfl, (List.nodup_cons.mp hrest).1⟩

/-- Where a walk was last when it comes to a node. -/
theorem getLast?_visited (h : p.Indexes nodes lhs rhs) (hs : p.Stands side above before t after)
    (hwalk : p.walk side = visited ++ t :: rest) :
    visited.getLast? = ((Forest.ofTrees before).subtrees.getLast? <|> above) := by
  obtain ⟨visited', rest', hwalk', hlast⟩ := hs.exists_visited
  -- No node is met twice, so there is one place where the walk can be cut.
  obtain ⟨hvisited, hrest⟩ := h.notMem_visited hwalk
  obtain ⟨rfl, -, -⟩ :=
    (List.append_cons_inj_of_notMem hvisited hrest).mp (hwalk.symm.trans hwalk')
  exact hlast

/-- The node that is linked as the one before is the one that a walk meets before, exactly when the
sibling before has nothing below it. -/
theorem prev_eq_visited_iff (h : p.Indexes nodes lhs rhs) (hn : nodes.Coherent)
    (hs : p.Stands side above before t after) (hwalk : p.walk side = visited ++ t :: rest) :
    p.prev t.label = .ok visited.getLast? ↔ ∀ s ∈ before.getLast?, s.children.trees = [] := by
  rw [h.prev_eq hn hs, h.getLast?_visited hs hwalk, Except.ok.injEq]
  rcases List.eq_nil_or_concat before with rfl | ⟨earlier, s, rfl⟩
  · simp [Forest.ofTrees, Forest.subtrees]
  · rw [List.concat_eq_append, Forest.getLast?_subtrees_concat, List.getLast?_concat]
    have hroot := s.getLast?_subtrees_eq_iff
    obtain ⟨v, hv⟩ : ∃ v, s.subtrees.getLast? = some v := ⟨_, List.getLast?_cons⟩
    rw [hv] at hroot ⊢
    change some s = some v ↔ _
    rw [eq_comm, hroot]
    simp

end Indexes

/-- The node before a node that the roots reach is the sibling before it, or its parent when there is
none. It is the node that the walk over the side meets right before this one, or none for the first
node, exactly when there is no sibling before it or that sibling has no children. -/
theorem prev_eq_preceding_iff {b : Builder} (hb : b.Reachable) {roots roots' : List Key}
    (hp : b.nodes.index roots roots' = .ok p) {k : Key}
    (hk : b.nodes.Reaches (roots ++ roots') k) :
    ∃ t previous parent, p.node k = .ok t ∧ p.previousSibling t.label = .ok previous ∧
      p.parent t.label = .ok parent ∧ p.prev t.label = .ok (previous <|> parent) ∧
      ∃ visited rest, p.walk (p.side t.label) = visited ++ t :: rest ∧
        t ∉ visited ∧ t ∉ rest ∧
        (p.prev t.label = .ok visited.getLast? ↔
          ∀ s ∈ previous, p.children s.label.node.key = .ok []) := by
  have hn := hb.sound.coherent
  obtain ⟨lhs, rhs, rfl, rfl, h⟩ := hn.indexes hp
  obtain ⟨t, ht, hnode, -⟩ := h.node_of_reaches hn hk
  obtain ⟨side, ht⟩ := mem_all_iff.mp ht
  obtain ⟨above, before, after, hs⟩ := exists_stands ht
  obtain ⟨visited, rest, hwalk⟩ := List.append_of_mem ht
  obtain ⟨hvisited, hrest⟩ := h.notMem_visited hwalk
  refine ⟨t, before.getLast?, above, hnode, h.previousSibling_eq hn hs, h.parent_eq hn hs,
    h.prev_eq hn hs, visited, rest, ?_, hvisited, hrest, ?_⟩
  · rw [h.side_of_mem_walk ht, hwalk]
  · rw [h.prev_eq_visited_iff hn hs hwalk]
    refine forall₂_congr fun s hmem => ?_
    have hsibling : s ∈ p.walk side :=
      hs.mem_walk s (List.mem_append_left _ (List.mem_of_getLast? hmem))
    rw [h.children_eq hn hsibling, Except.ok.injEq]

/-- An atom after a list with an atom in it. The outer atom is linked to the list, but a walk comes to
it from the inner atom; the inner atom is linked to the list, and a walk comes to it from there. -/
theorem prev_eq_preceding_iff_nested :
    ∃ p s t u,
      ((Builder.empty.buildAll
          [.list ⟨[], "("⟩ [.list ⟨[], "["⟩ [.atom ⟨[], "x", .normal⟩] ⟨[], "]"⟩,
            .atom ⟨[], "y", .normal⟩] ⟨[], ")"⟩]).2.buildAll
        [.atom ⟨[], "x", .normal⟩]).2.nodes.index [3] [4] = .ok p ∧
      p.node 1 = .ok s ∧ p.node 2 = .ok t ∧ p.node 0 = .ok u ∧
      (p.prev t.label = .ok (some s) ∧ ∃ visited rest,
        p.walk (p.side t.label) = visited ++ t :: rest ∧ p.prev t.label ≠ .ok visited.getLast?) ∧
      p.prev u.label = .ok (some s) ∧ ∃ visited rest,
        p.walk (p.side u.label) = visited ++ u :: rest ∧ p.prev u.label = .ok visited.getLast? := by
  obtain ⟨hb, p, hp⟩ := Builder.exists_index_of_buildAll
    [.list ⟨[], "("⟩ [.list ⟨[], "["⟩ [.atom ⟨[], "x", .normal⟩] ⟨[], "]"⟩,
      .atom ⟨[], "y", .normal⟩] ⟨[], ")"⟩]
    [.atom ⟨[], "x", .normal⟩] [3] [4] rfl rfl
  have hn := hb.sound.coherent
  obtain ⟨lhs, rhs, hl, hr, h⟩ := hn.indexes hp
  obtain ⟨r, hmem, hroot, -⟩ := h.node_of_reaches hn (k := 3) (hl ▸ hr ▸ .root (by simp))
  obtain ⟨side, hr⟩ := mem_all_iff.mp hmem
  -- The two rows below the root are looked up by the keys that the store has for them.
  have hrow : [1, 2].mapM p.node = .ok r.children.trees := h.mapM_childKeys hn hroot rfl
  generalize htrees : r.children.trees = row at hrow
  obtain _ | ⟨hs, _ | ⟨ht, _ | _⟩⟩ := mapM_eq_ok_iff.mp hrow
  rename_i s t
  have hstands : p.Stands side (some r) [s] t [] := ⟨by simpa using hr, htrees⟩
  have hrow' : [0].mapM p.node = .ok s.children.trees := h.mapM_childKeys hn hs rfl
  generalize htrees' : s.children.trees = row at hrow'
  obtain _ | ⟨hu, _ | _⟩ := mapM_eq_ok_iff.mp hrow'
  rename_i u
  have hstands' : p.Stands side (some s) [] u [] :=
    ⟨by simpa using hstands.mem_walk s (by simp), htrees'⟩
  refine ⟨p, s, t, u, hp, hs, ht, hu, ⟨h.prev_eq hn hstands, ?_⟩, h.prev_eq hn hstands', ?_⟩
  · obtain ⟨_, previous, -, hfound, hprevious, -, -, visited, rest, hwalk, -, -, hiff⟩ :=
      prev_eq_preceding_iff hb hp (k := 2)
        (.child (.root (by simp : 3 ∈ [3] ++ [4])) rfl (by decide))
    obtain rfl := Except.ok.inj (ht.symm.trans hfound)
    obtain rfl := Except.ok.inj ((h.previousSibling_eq hn hstands).symm.trans hprevious)
    refine ⟨visited, rest, hwalk, fun hlast => ?_⟩
    have hnone := hiff.mp hlast s rfl
    rw [h.children_eq hn (hstands.mem_walk s (by simp)), htrees'] at hnone
    cases hnone
  · obtain ⟨_, previous, -, hfound, hprevious, -, -, visited, rest, hwalk, -, -, hiff⟩ :=
      prev_eq_preceding_iff hb hp (k := 0) (.child
        (.child (.root (by simp : 3 ∈ [3] ++ [4])) rfl (by decide : 1 ∈ _)) rfl (by decide))
    obtain rfl := Except.ok.inj (hu.symm.trans hfound)
    obtain rfl := Except.ok.inj ((h.previousSibling_eq hn hstands').symm.trans hprevious)
    exact ⟨visited, rest, hwalk, hiff.mpr (by simp)⟩

end Pair

end TwinForest
