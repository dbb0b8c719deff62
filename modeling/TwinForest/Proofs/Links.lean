import TwinForest.Proofs.Preorder
import TwinForest.Proofs.Rows

/-!
# Links between the nodes of a pair

Parents and depths are written by one pass, siblings by another, and the children of a node are not
written at all but read from the store. All of them agree, since all of them tell where a node stands
in its row: a node is among the children of its parent, two nodes are linked to each other when they
stand side by side, and a row can be read off by going from sibling to sibling.

## Main definitions

* `Nodes.Row`, `Nodes.Adjacent`: rows of siblings by their keys, and neighbours in a row.
* `Pair.Follows`: going from sibling to sibling.
* `Pair.Climbs`: going from parent to parent.
* `Pair.Consistent`: all links agree with the rows.

## Main results

* `Pair.Indexes.adjacent_iff`: neighbours by keys are neighbours in a row of the pair.
* `Pair.Indexes.follows_row`, `Pair.Indexes.climbs`: where the two ways lead.
* `Pair.links_consistent`: the links of every indexed pair are consistent.
-/

namespace TwinForest

namespace Nodes

/-- The rows of siblings in what two lists of roots reach: the two lists, and the children of every
node that is reached. -/
inductive Row (nodes : Nodes) (roots roots' : List Key) : List Key → Prop where
  | lhs : Row nodes roots roots' roots
  | rhs : Row nodes roots roots' roots'
  | children {key : Key} {t : Tree Node} : nodes.Reaches (roots ++ roots') key →
      nodes.get? key = some t → Row nodes roots roots' t.childKeys

def Adjacent (nodes : Nodes) (roots roots' : List Key) (k l : Key) : Prop :=
  ∃ row, nodes.Row roots roots' row ∧ [k, l] <:+: row

end Nodes

namespace Pair

/-- Going on from a node, or from nowhere, to the next sibling each time meets the given nodes. -/
inductive Follows (p : Pair) : Option (Tree Linked) → List (Tree Linked) → Prop where
  | done : Follows p none []
  | next {t : Tree Linked} {r : Option (Tree Linked)} {visited : List (Tree Linked)} :
      p.nextSibling t.label = .ok r → Follows p r visited → Follows p (some t) (t :: visited)

/-- Going from a node to its parent each time ends after the given number of steps. -/
inductive Climbs (p : Pair) : Tree Linked → Nat → Prop where
  | root {t : Tree Linked} : p.parent t.label = .ok none → Climbs p t 0
  | up {t u : Tree Linked} {n : Nat} : p.parent t.label = .ok (some u) → Climbs p u n →
      Climbs p t (n + 1)

/-- A link of a node was followed without a fault, and what it leads to is reached by the roots of the
side of the node. -/
def StaysOnSide (p : Pair) (nodes : Nodes) (roots roots' : List Key) (n : Linked)
    (target : Except Fault (Option (Tree Linked))) : Prop :=
  ∃ r, target = .ok r ∧ ∀ u ∈ r, p.node u.label.node.key = .ok u ∧ p.side u.label = p.side n ∧
    nodes.Reaches ((p.side n).pick roots roots') u.label.node.key

/-- The links of all nodes that the roots reach agree with one another and with the rows in which the
nodes stand. -/
structure Consistent (p : Pair) (nodes : Nodes) (roots roots' : List Key) : Prop where
  reaches_iff : ∀ k, nodes.Reaches (roots ++ roots') k ↔ ∃ t, p.node k = .ok t
  side_iff : ∀ {k t}, p.node k = .ok t → ∀ side,
    p.side t.label = side ↔ nodes.Reaches (side.pick roots roots') k
  children : ∀ {k t}, p.node k = .ok t → ∃ cs, p.children k = .ok cs ∧
    ∀ u, u ∈ cs ↔ p.node u.label.node.key = .ok u ∧ p.parent u.label = .ok (some t)
  root_iff : ∀ {k t}, p.node k = .ok t →
    (p.parent t.label = .ok none ↔ k ∈ (p.side t.label).pick roots roots')
  nextSibling_iff : ∀ {k l t u}, p.node k = .ok t → p.node l = .ok u →
    (p.nextSibling t.label = .ok (some u) ↔ nodes.Adjacent roots roots' k l)
  previousSibling_iff : ∀ {k l t u}, p.node k = .ok t → p.node l = .ok u →
    (p.previousSibling u.label = .ok (some t) ↔ nodes.Adjacent roots roots' k l)
  row : ∀ {row}, nodes.Row roots roots' row → ∃ ts, row.mapM p.node = .ok ts ∧
    ∀ visited, p.Follows ts.head? visited ↔ visited = ts
  ancestors : ∀ {k t}, p.node k = .ok t → ∀ n, p.Climbs t n ↔ n = t.label.ancestors
  target : ∀ {k t}, p.node k = .ok t →
    ∀ link ∈ [p.parent, p.previousSibling, p.nextSibling, p.prev],
      p.StaysOnSide nodes roots roots' t.label (link t.label)

variable {p : Pair} {nodes : Nodes} {lhs rhs : List (Tree Node)} {side : Side}
variable {above : Option (Tree Linked)} {before after : List (Tree Linked)} {t u : Tree Linked}

/-! ## Going from node to node -/

theorem Follows.unique {first : Option (Tree Linked)} {visited visited' : List (Tree Linked)}
    (h : p.Follows first visited) (h' : p.Follows first visited') : visited = visited' := by
  induction h generalizing visited' with
  | done =>
    cases h'
    rfl
  | next hnext _ ih =>
    cases h' with
    | next hnext' hrest =>
      rw [hnext] at hnext'
      cases hnext'
      rw [ih hrest]

theorem Climbs.unique {m n : Nat} (h : p.Climbs t m) (h' : p.Climbs t n) : m = n := by
  induction h generalizing n with
  | root hparent =>
    cases h' with
    | root => rfl
    | up hparent' =>
      rw [hparent] at hparent'
      cases hparent'
  | up hparent _ ih =>
    cases h' with
    | root hparent' =>
      rw [hparent] at hparent'
      cases hparent'
    | up hparent' hrest =>
      rw [hparent] at hparent'
      cases hparent'
      rw [ih hrest]

theorem Stands.next (h : p.Stands side above before t (u :: after)) :
    p.Stands side above (before ++ [t]) u after :=
  ⟨h.above_mem, by simp [h.row_eq]⟩

namespace Indexes

/-- The children of a node are the nodes whose parent it is. -/
theorem mem_children_iff_parent (h : p.Indexes nodes lhs rhs) (hn : nodes.Coherent)
    (ht : t ∈ p.walk side) :
    u ∈ t.children.trees ↔ p.node u.label.node.key = .ok u ∧ p.parent u.label = .ok (some t) := by
  constructor
  · intro hchild
    obtain ⟨before, after, hs⟩ := exists_stands_of_mem_children ht hchild
    exact ⟨h.node_eq hn (hs.mem_walk u (by simp)), h.parent_eq hn hs⟩
  · rintro ⟨hu, hparent⟩
    obtain ⟨side', hu⟩ := mem_all_iff.mp ((h.node_eq_ok_iff hn).mp hu).1
    obtain ⟨above, before, after, hs⟩ := exists_stands hu
    rw [h.parent_eq hn hs] at hparent
    cases hparent
    have hrow : t.children.trees = before ++ u :: after := hs.row_eq
    simp [hrow]

/-- The roots are the nodes without a parent. -/
theorem parent_eq_none_iff (h : p.Indexes nodes lhs rhs) (hn : nodes.Coherent)
    (ht : t ∈ p.walk side) :
    p.parent t.label = .ok none ↔ t.label.node.key ∈ (side.pick lhs rhs).map Tree.key := by
  rw [Forest.map_key_of_built (h.built_forest side)]
  constructor
  · intro hparent
    obtain ⟨above, before, after, hs⟩ := exists_stands ht
    rw [h.parent_eq hn hs] at hparent
    cases hparent
    have hrow : p.roots side = before ++ t :: after := hs.row_eq
    change _ ∈ (p.roots side).map _
    simp [hrow]
  · intro hmem
    obtain ⟨u, hu, hkey⟩ := List.mem_map.mp hmem
    have hwalk : u ∈ p.walk side := mem_walk_of_mem_roots hu
    obtain rfl := h.key_inj (mem_all_of_mem_walk hwalk) (mem_all_of_mem_walk ht) hkey
    obtain ⟨before, after, hs⟩ := exists_stands_of_mem_roots hu
    exact h.parent_eq hn hs

/-- A node is on the side whose roots reach it. -/
theorem side_iff_reaches (h : p.Indexes nodes lhs rhs) (hn : nodes.Coherent)
    (ht : t ∈ p.all.subtrees) : p.side t.label = side ↔
      nodes.Reaches ((side.pick lhs rhs).map Tree.key) t.label.node.key := by
  rw [h.side_eq_iff ht, h.reaches_side_iff hn]
  constructor
  · exact fun hwalk => ⟨t, hwalk, rfl⟩
  · rintro ⟨u, hu, hkey⟩
    obtain rfl := h.key_inj (mem_all_of_mem_walk hu) ht hkey
    exact hu

/-- The rows of keys are those of the nodes that stand in them. -/
theorem row_iff (h : p.Indexes nodes lhs rhs) (hn : nodes.Coherent) {row : List Key} :
    nodes.Row (lhs.map Tree.key) (rhs.map Tree.key) row ↔
      ∃ side above, (∀ u ∈ above, u ∈ p.walk side) ∧
        row = (p.row side above).map fun t => t.label.node.key := by
  constructor
  · intro hrow
    cases hrow with
    | lhs => exact ⟨.lhs, none, by simp, Forest.map_key_of_built h.built_lhs⟩
    | rhs => exact ⟨.rhs, none, by simp, Forest.map_key_of_built h.built_rhs⟩
    | children hreach hget =>
      obtain ⟨t, ht, rfl⟩ := (h.reaches_iff hn).mp hreach
      obtain rfl := Option.some.inj ((h.stores_built hn ht).symm.trans hget)
      obtain ⟨side, ht⟩ := mem_all_iff.mp ht
      exact ⟨side, some t, by simpa using ht, t.childKeys_built⟩
  · rintro ⟨side, above, habove, rfl⟩
    cases above with
    | none =>
      change nodes.Row _ _ ((p.forest side).trees.map _)
      rw [← Forest.map_key_of_built (h.built_forest side)]
      cases side with
      | lhs => exact .lhs
      | rhs => exact .rhs
    | some t =>
      have ht := mem_all_of_mem_walk (habove t rfl)
      change nodes.Row _ _ (t.children.trees.map _)
      rw [← t.childKeys_built]
      exact .children ((h.reaches_iff hn).mpr ⟨t, ht, rfl⟩) (h.stores_built hn ht)

/-- Neighbours by their keys stand side by side. -/
theorem adjacent_iff (h : p.Indexes nodes lhs rhs) (hn : nodes.Coherent)
    (ht : t ∈ p.all.subtrees) (hu : u ∈ p.all.subtrees) :
    nodes.Adjacent (lhs.map Tree.key) (rhs.map Tree.key) t.label.node.key u.label.node.key ↔
      ∃ side above before after, p.Stands side above before t (u :: after) := by
  constructor
  · rintro ⟨row, hrow, hinfix⟩
    obtain ⟨side, above, habove, rfl⟩ := (h.row_iff hn).mp hrow
    obtain ⟨pair, ⟨before, after, hsplit⟩, hpair⟩ := List.infix_map_iff.mp hinfix
    obtain ⟨t', u', rfl⟩ : ∃ t' u', pair = [t', u'] :=
      List.length_eq_two.mp (by simpa using (congrArg List.length hpair).symm)
    have hmem : ∀ v ∈ [t', u'], v ∈ p.all.subtrees := by
      intro v hv
      refine mem_all_of_mem_walk (mem_walk_of_mem_row habove ?_)
      rw [← hsplit]
      exact List.mem_append_left _ (List.mem_append_right _ hv)
    simp only [List.map_cons, List.map_nil, List.cons.injEq, and_true] at hpair
    obtain rfl := h.key_inj ht (hmem t' (by simp)) hpair.1
    obtain rfl := h.key_inj hu (hmem u' (by simp)) hpair.2
    exact ⟨side, above, before, after, habove, by simp [← hsplit]⟩
  · rintro ⟨side, above, before, after, hs⟩
    refine ⟨_, (h.row_iff hn).mpr ⟨side, above, hs.above_mem, rfl⟩, ?_⟩
    have hinfix : [t, u] <:+: before ++ t :: u :: after := ⟨before, after, by simp⟩
    rw [hs.row_eq]
    exact hinfix.map fun v => v.label.node.key

theorem nextSibling_eq_some_iff (h : p.Indexes nodes lhs rhs) (hn : nodes.Coherent)
    (ht : t ∈ p.all.subtrees) (hu : u ∈ p.all.subtrees) :
    p.nextSibling t.label = .ok (some u) ↔
      nodes.Adjacent (lhs.map Tree.key) (rhs.map Tree.key) t.label.node.key u.label.node.key := by
  rw [h.adjacent_iff hn ht hu]
  constructor
  · intro hnext
    obtain ⟨side, ht⟩ := mem_all_iff.mp ht
    obtain ⟨above, before, after, hs⟩ := exists_stands ht
    rw [h.nextSibling_eq hn hs] at hnext
    obtain ⟨rest, rfl⟩ := List.head?_eq_some_iff.mp (Except.ok.inj hnext)
    exact ⟨side, above, before, rest, hs⟩
  · rintro ⟨side, above, before, after, hs⟩
    exact h.nextSibling_eq hn hs

theorem previousSibling_eq_some_iff (h : p.Indexes nodes lhs rhs) (hn : nodes.Coherent)
    (ht : t ∈ p.all.subtrees) (hu : u ∈ p.all.subtrees) :
    p.previousSibling u.label = .ok (some t) ↔
      nodes.Adjacent (lhs.map Tree.key) (rhs.map Tree.key) t.label.node.key u.label.node.key := by
  rw [h.adjacent_iff hn ht hu]
  constructor
  · intro hprevious
    obtain ⟨side, hu⟩ := mem_all_iff.mp hu
    obtain ⟨above, before, after, hs⟩ := exists_stands hu
    rw [h.previousSibling_eq hn hs] at hprevious
    obtain ⟨rest, rfl⟩ := List.getLast?_eq_some_iff.mp (Except.ok.inj hprevious)
    exact ⟨side, above, rest, after, hs.above_mem, by simp [hs.row_eq]⟩
  · rintro ⟨side, above, before, after, hs⟩
    rw [h.previousSibling_eq hn hs.next, List.getLast?_concat]

/-- From any place in a row, the siblings that follow are met to the end of it. -/
theorem follows_row (h : p.Indexes nodes lhs rhs) (hn : nodes.Coherent)
    (habove : ∀ u ∈ above, u ∈ p.walk side) (hrow : p.row side above = before ++ after) :
    p.Follows after.head? after := by
  induction after generalizing before with
  | nil => exact .done
  | cons t after ih =>
    have hs : p.Stands side above before t after := ⟨habove, hrow⟩
    have hrest : p.row side above = (before ++ [t]) ++ after := by simp [hrow]
    exact .next (h.nextSibling_eq hn hs) (ih hrest)

/-- The parents of a node are as many as it says. -/
theorem climbs (h : p.Indexes nodes lhs rhs) (hn : nodes.Coherent) (ht : t ∈ p.walk side) :
    p.Climbs t t.label.ancestors := by
  -- A parent has one ancestor less, so the induction is on their number.
  induction hcount : t.label.ancestors generalizing t with
  | zero =>
    obtain ⟨above, before, after, hs⟩ := exists_stands ht
    rw [h.ancestors_eq hs] at hcount
    cases above with
    | none => exact .root (h.parent_eq hn hs)
    | some u => cases hcount
  | succ n ih =>
    obtain ⟨above, before, after, hs⟩ := exists_stands ht
    rw [h.ancestors_eq hs] at hcount
    cases above with
    | none => cases hcount
    | some u =>
      exact .up (h.parent_eq hn hs) (ih (hs.above_mem u rfl) (Nat.succ.inj hcount))

/-- A link that arrives on the side of a node stays on it. -/
theorem staysOnSide (h : p.Indexes nodes lhs rhs) (hn : nodes.Coherent) (ht : t ∈ p.walk side)
    {target : Except Fault (Option (Tree Linked))} (htarget : p.Arrives side target) :
    p.StaysOnSide nodes (lhs.map Tree.key) (rhs.map Tree.key) t.label target := by
  obtain ⟨r, hr, hmem⟩ := htarget
  refine ⟨r, hr, fun u hu => ?_⟩
  have hwalk := hmem u hu
  rw [h.side_of_mem_walk ht, h.side_of_mem_walk hwalk, ← Side.map_pick]
  exact ⟨h.node_eq hn hwalk, rfl, (h.reaches_side_iff hn).mpr ⟨u, hwalk, rfl⟩⟩

end Indexes

/-- In every indexed pair, the links of the nodes that the roots reach agree with one another and with
the rows in which the nodes stand. -/
theorem links_consistent {b : Builder} (hb : b.Reachable) {roots roots' : List Key}
    (hp : b.nodes.index roots roots' = .ok p) : p.Consistent b.nodes roots roots' := by
  have hn := hb.sound.coherent
  obtain ⟨lhs, rhs, rfl, rfl, h⟩ := hn.indexes hp
  have hnav := h.navigable hn
  have hfound : ∀ {k t}, p.node k = .ok t → ∃ side, t ∈ p.walk side ∧ t.label.node.key = k := by
    intro k t hk
    obtain ⟨ht, hkey⟩ := (h.node_eq_ok_iff hn).mp hk
    obtain ⟨side, ht⟩ := mem_all_iff.mp ht
    exact ⟨side, ht, hkey⟩
  refine {
    reaches_iff := ?_, side_iff := ?_, children := ?_, root_iff := ?_, nextSibling_iff := ?_,
    previousSibling_iff := ?_, row := ?_, ancestors := ?_, target := ?_ }
  · intro k
    simp only [h.reaches_iff hn, h.node_eq_ok_iff hn]
  · intro k t hk side
    obtain ⟨_, ht, rfl⟩ := hfound hk
    rw [← Side.map_pick]
    exact h.side_iff_reaches hn (mem_all_of_mem_walk ht)
  · intro k t hk
    obtain ⟨side, ht, rfl⟩ := hfound hk
    exact ⟨t.children.trees, h.children_eq hn ht, fun u => h.mem_children_iff_parent hn ht⟩
  · intro k t hk
    obtain ⟨side, ht, rfl⟩ := hfound hk
    rw [h.side_of_mem_walk ht, h.parent_eq_none_iff hn ht, Side.map_pick]
  · intro k l t u hk hl
    obtain ⟨side, ht, rfl⟩ := hfound hk
    obtain ⟨side', hu, rfl⟩ := hfound hl
    exact h.nextSibling_eq_some_iff hn (mem_all_of_mem_walk ht) (mem_all_of_mem_walk hu)
  · intro k l t u hk hl
    obtain ⟨side, ht, rfl⟩ := hfound hk
    obtain ⟨side', hu, rfl⟩ := hfound hl
    exact h.previousSibling_eq_some_iff hn (mem_all_of_mem_walk ht) (mem_all_of_mem_walk hu)
  · intro row hrow
    obtain ⟨side, above, habove, rfl⟩ := (h.row_iff hn).mp hrow
    have hfollows := h.follows_row hn habove (List.nil_append _).symm
    refine ⟨p.row side above, mapM_eq_ok fun t ht => ?_, fun visited => ⟨?_, ?_⟩⟩
    · exact h.node_eq hn (mem_walk_of_mem_row habove ht)
    · exact fun hvisited => hvisited.unique hfollows
    · rintro rfl
      exact hfollows
  · intro k t hk n
    obtain ⟨side, ht, rfl⟩ := hfound hk
    constructor
    · exact fun hclimbs => hclimbs.unique (h.climbs hn ht)
    · rintro rfl
      exact h.climbs hn ht
  · intro k t hk link hlink
    obtain ⟨side, ht, rfl⟩ := hfound hk
    apply h.staysOnSide hn ht
    simp only [List.mem_cons, List.not_mem_nil, or_false] at hlink
    rcases hlink with rfl | rfl | rfl | rfl
    · exact hnav.parent side t ht
    · exact hnav.previousSibling side t ht
    · exact hnav.nextSibling side t ht
    · exact hnav.prev side t ht

/-- A list with a list and an atom in it, of which the inner list has an atom. -/
theorem links_consistent_nested :
    ∃ p r s t u,
      ((Builder.empty.buildAll
          [.list ⟨[], "("⟩ [.list ⟨[], "["⟩ [.atom ⟨[], "x", .normal⟩] ⟨[], "]"⟩,
            .atom ⟨[], "y", .normal⟩] ⟨[], ")"⟩]).2.buildAll
        [.atom ⟨[], "x", .normal⟩]).2.nodes.index [3] [4] = .ok p ∧
      p.node 3 = .ok r ∧ p.node 1 = .ok s ∧ p.node 2 = .ok t ∧ p.node 0 = .ok u ∧
      p.nextSibling s.label = .ok (some t) ∧ p.previousSibling t.label = .ok (some s) ∧
      p.parent r.label = .ok none ∧ p.parent s.label = .ok (some r) ∧
      p.parent u.label = .ok (some s) ∧ u.label.ancestors = 2 := by
  obtain ⟨hb, p, hp⟩ := Builder.exists_index_of_buildAll
    [.list ⟨[], "("⟩ [.list ⟨[], "["⟩ [.atom ⟨[], "x", .normal⟩] ⟨[], "]"⟩,
      .atom ⟨[], "y", .normal⟩] ⟨[], ")"⟩]
    [.atom ⟨[], "x", .normal⟩] [3] [4] rfl rfl
  have h := links_consistent hb hp
  obtain ⟨r, hr⟩ := (h.reaches_iff 3).mp (.root (by simp))
  have hreach := (h.reaches_iff 3).mpr ⟨r, hr⟩
  obtain ⟨s, hs⟩ := (h.reaches_iff 1).mp (hreach.child rfl (by decide))
  obtain ⟨t, ht⟩ := (h.reaches_iff 2).mp (hreach.child rfl (by decide))
  obtain ⟨u, hu⟩ := (h.reaches_iff 0).mp (((h.reaches_iff 1).mpr ⟨s, hs⟩).child rfl (by decide))
  have hadjacent : Nodes.Adjacent _ [3] [4] 1 2 := ⟨_, .children hreach rfl, [], [], rfl⟩
  -- The children are looked up by the keys that the store has for them.
  obtain ⟨_, _, -, -, hindexes⟩ := hb.sound.coherent.indexes hp
  obtain ⟨cs, hcs, hparent⟩ := h.children hr
  obtain ⟨ds, hds, hparent'⟩ := h.children hs
  have hrow : [1, 2].mapM p.node = .ok cs := by
    rw [Pair.children, hindexes.nodes_eq] at hcs
    exact hcs
  have hrow' : [0].mapM p.node = .ok ds := by
    rw [Pair.children, hindexes.nodes_eq] at hds
    exact hds
  simp only [List.mapM_cons, List.mapM_nil, hs, ht, hu] at hrow hrow'
  cases hrow
  cases hrow'
  have hs' : p.parent s.label = .ok (some r) := ((hparent s).mp (by simp)).2
  have hu' : p.parent u.label = .ok (some s) := ((hparent' u).mp (by simp)).2
  have hr' : p.parent r.label = .ok none := by
    rw [h.root_iff hr, (h.side_iff hr .lhs).mpr (.root (by decide))]
    decide
  refine ⟨p, r, s, t, u, hp, hr, hs, ht, hu, (h.nextSibling_iff hs ht).mpr hadjacent,
    (h.previousSibling_iff hs ht).mpr hadjacent, hr', hs', hu', ?_⟩
  exact ((h.ancestors hu 2).mp (.up hu' (.up hs' (.root hr')))).symm

end Pair

end TwinForest
