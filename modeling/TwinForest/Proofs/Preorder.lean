import TwinForest.Proofs.Navigation

/-!
# Pre-order numbers

Both sides of an indexed pair are numbered in one go, the left one first. A walk over a side meets
the nodes in the order of their numbers, so the number alone tells on which side a node is.
-/

namespace TwinForest

/-! ## Numbers -/

/-- The numbers of a forest are consecutive along the pre-order, and the next one follows them. -/
theorem Placed.ids_number (parent : Option Key) (ancestors waiting : Nat) (next : NodeId)
    (f : Forest Node) :
    (number parent ancestors waiting next f).1.preorder.map Placed.id = List.range' next f.size ∧
      (number parent ancestors waiting next f).2 = next + f.size := by
  induction f generalizing parent ancestors waiting next with
  | nil => exact ⟨rfl, rfl⟩
  | cons n children rest ihc ihr =>
    obtain ⟨hc, hcnext⟩ := ihc (some n.key) (ancestors + 1) (waiting - 1 + children.width) (next + 1)
    obtain ⟨hr, hrnext⟩ := ihr parent ancestors (waiting - 1) (next + 1 + children.size)
    have hsize : (Forest.cons n children rest).size = children.size + rest.size + 1 := rfl
    constructor
    · simp only [number, Forest.preorder, List.map_cons, List.map_append, hc, hcnext, hr]
      rw [hsize, List.range'_succ, List.range'_append_1]
    · simp only [number, hcnext, hrnext, hsize]
      rw [Nat.add_assoc, Nat.add_assoc, Nat.add_comm 1]

theorem Placed.ids_numberSide (next : NodeId) (f : Forest Node) :
    (numberSide next f).1.preorder.map Placed.id = List.range' next f.size ∧
      (numberSide next f).2 = next + f.size :=
  ids_number none 0 f.width next f

def Side.pick {α : Type u} (lhs rhs : α) : Side → α
  | .lhs => lhs
  | .rhs => rhs

theorem Side.map_pick {α : Type u} {β : Type v} (f : α → β) (a b : List α) (side : Side) :
    (side.pick a b).map f = side.pick (a.map f) (b.map f) := by
  cases side <;> rfl

namespace Pair

variable {p : Pair} {nodes : Nodes} {lhs rhs : List (Tree Node)} {t : Tree Linked} {side : Side}

/-- Each visit is determined by the stack, so a walk has one outcome only. -/
theorem Visits.unique {stack visited visited' : List (Tree Linked)} (h : p.Visits stack visited)
    (h' : p.Visits stack visited') : visited = visited' := by
  induction h generalizing visited' with
  | done =>
    cases h'
    rfl
  | visit hchildren _ ih =>
    cases h' with
    | visit hchildren' hrest =>
      rw [hchildren] at hchildren'
      cases hchildren'
      rw [ih hrest]

theorem length_walk (p : Pair) (side : Side) : (p.walk side).length = (p.forest side).size := by
  rw [walk, Forest.walk_eq_subtrees, Forest.length_subtrees]

theorem ids_walk_eq (p : Pair) (side : Side) :
    (p.walk side).map (·.label.id) =
      ((p.forest side).map (·.toPlaced)).preorder.map Placed.id := by
  rw [walk, Forest.walk_eq_subtrees, Forest.preorder_map, Forest.preorder_eq_map_subtrees,
    List.map_map, List.map_map]
  rfl

namespace Indexes

theorem size_lhs (h : p.Indexes nodes lhs rhs) : (Forest.ofTrees lhs).size = p.lhs.size := by
  rw [← h.built_lhs, Forest.built, Forest.size_map]

theorem size_rhs (h : p.Indexes nodes lhs rhs) : (Forest.ofTrees rhs).size = p.rhs.size := by
  rw [← h.built_rhs, Forest.built, Forest.size_map]

theorem lhsSize_eq_size (h : p.Indexes nodes lhs rhs) : p.lhsSize = p.lhs.size := by
  rw [h.lhsSize_eq, (Placed.ids_numberSide _ _).2, h.size_lhs, Nat.add_sub_cancel_left]

theorem size_eq_add (h : p.Indexes nodes lhs rhs) : p.size = p.lhs.size + p.rhs.size := by
  rw [h.size_eq, (Placed.ids_numberSide _ _).2, (Placed.ids_numberSide _ _).2, h.size_lhs,
    h.size_rhs]
  omega

theorem sideSize_eq (h : p.Indexes nodes lhs rhs) (side : Side) :
    p.sideSize side = (p.walk side).length := by
  rw [length_walk]
  cases side with
  | lhs => exact h.lhsSize_eq_size
  | rhs =>
    change p.size - p.lhsSize = p.rhs.size
    rw [h.size_eq_add, h.lhsSize_eq_size, Nat.add_sub_cancel_left]

theorem ids_lhs (h : p.Indexes nodes lhs rhs) :
    (p.walk .lhs).map (·.label.id) = List.range' 1 p.lhs.size := by
  rw [ids_walk_eq, forest, h.placed_lhs, (Placed.ids_numberSide _ _).1, h.size_lhs]

theorem ids_rhs (h : p.Indexes nodes lhs rhs) :
    (p.walk .rhs).map (·.label.id) = List.range' (1 + p.lhs.size) p.rhs.size := by
  rw [ids_walk_eq, forest, h.placed_rhs, (Placed.ids_numberSide _ _).1,
    (Placed.ids_numberSide _ _).2, h.size_lhs, h.size_rhs]

theorem ids_all (h : p.Indexes nodes lhs rhs) :
    (p.walk .lhs ++ p.walk .rhs).map (·.label.id) = List.range' 1 p.size := by
  rw [List.map_append, h.ids_lhs, h.ids_rhs, h.size_eq_add, List.range'_append_1]

/-- The number of a node tells its side. -/
theorem side_of_mem_walk (h : p.Indexes nodes lhs rhs) (ht : t ∈ p.walk side) :
    p.side t.label = side := by
  have hid : t.label.id ∈ (p.walk side).map (·.label.id) := List.mem_map_of_mem ht
  cases side with
  | lhs =>
    rw [h.ids_lhs, List.mem_range'_1, Nat.add_comm, ← h.lhsSize_eq_size] at hid
    exact if_pos (Nat.le_of_lt_succ hid.2)
  | rhs =>
    rw [h.ids_rhs, List.mem_range'_1, Nat.add_comm, ← h.lhsSize_eq_size] at hid
    exact if_neg (Nat.not_le_of_lt hid.1)

theorem side_eq_iff (h : p.Indexes nodes lhs rhs) (ht : t ∈ p.all.subtrees) :
    p.side t.label = side ↔ t ∈ p.walk side := by
  refine ⟨fun hside => ?_, h.side_of_mem_walk⟩
  rw [all, Forest.subtrees_append, List.mem_append] at ht
  rcases ht with ht | ht
  · have hwalk : t ∈ p.walk .lhs := mem_walk.mpr ht
    rwa [← hside, h.side_of_mem_walk hwalk]
  · have hwalk : t ∈ p.walk .rhs := mem_walk.mpr ht
    rwa [← hside, h.side_of_mem_walk hwalk]

theorem built_forest (h : p.Indexes nodes lhs rhs) (side : Side) :
    (p.forest side).built = .ofTrees (side.pick lhs rhs) := by
  cases side with
  | lhs => exact h.built_lhs
  | rhs => exact h.built_rhs

theorem stores_side (h : p.Indexes nodes lhs rhs) (side : Side) :
    ∀ t ∈ side.pick lhs rhs, nodes.Stores t := by
  intro t ht
  cases side with
  | lhs => exact h.stores t (List.mem_append_left _ ht)
  | rhs => exact h.stores t (List.mem_append_right _ ht)

/-- A walk meets what lies below the roots of its side, in the order of the recursion. -/
theorem built_walk (h : p.Indexes nodes lhs rhs) (side : Side) :
    (p.walk side).map Tree.built = (side.pick lhs rhs).flatMap Tree.subtrees := by
  rw [walk, Forest.walk_eq_subtrees, ← Forest.subtrees_built, h.built_forest,
    Forest.subtrees_ofTrees]

theorem reaches_side_iff (h : p.Indexes nodes lhs rhs) (hn : nodes.Coherent) {k : Key} :
    nodes.Reaches ((side.pick lhs rhs).map Tree.key) k ↔
      ∃ t ∈ p.walk side, t.label.node.key = k := by
  rw [hn.reaches_iff (h.stores_side side), ← h.built_forest, Forest.keys_built, List.mem_map]
  simp only [mem_walk]

theorem nodup_walk (h : p.Indexes nodes lhs rhs) (side : Side) :
    ((p.walk side).map fun t => t.label.node.key).Nodup := by
  have hall := h.nodup_all
  rw [all, Forest.built_append, Forest.keys_append, List.nodup_append] at hall
  rw [walk, Forest.walk_eq_subtrees, ← Forest.keys_built]
  cases side with
  | lhs => exact hall.1
  | rhs => exact hall.2.1

end Indexes

/-- A walk over a side starts with the given roots on its stack, comes to an end, and has then met
what lies below them, each node once and in the order of the recursion. -/
structure InOrder (p : Pair) (nodes : Nodes) (side : Side) (roots : List Key) : Prop where
  start : roots.mapM p.node = .ok (p.roots side)
  visits_iff : ∀ visited, p.Visits (p.roots side) visited ↔ visited = p.walk side
  recursion : ∃ ts, roots.mapM nodes.item = .ok ts ∧
    (p.walk side).map Tree.built = ts.flatMap Tree.subtrees
  nodup : ((p.walk side).map fun t => t.label.node.key).Nodup
  reaches_iff : ∀ k, nodes.Reaches roots k ↔ ∃ t ∈ p.walk side, p.node k = .ok t
  length : (p.walk side).length = p.sideSize side

theorem Indexes.inOrder (h : p.Indexes nodes lhs rhs) (hn : nodes.Coherent) (side : Side) :
    p.InOrder nodes side ((side.pick lhs rhs).map Tree.key) where
  start := by
    rw [Forest.map_key_of_built (h.built_forest side)]
    exact h.mapM_node_roots hn side
  visits_iff visited := by
    constructor
    · intro hv
      exact hv.unique (h.visits_walk hn side)
    · rintro rfl
      exact h.visits_walk hn side
  recursion := by
    exact ⟨side.pick lhs rhs, Nodes.mapM_item_map_key (h.stores_side side), h.built_walk side⟩
  nodup := h.nodup_walk side
  reaches_iff k := by
    rw [h.reaches_side_iff hn]
    refine exists_congr fun t => and_congr_right fun ht => ?_
    rw [h.node_eq_ok_iff hn]
    exact (and_iff_right (mem_all_of_mem_walk ht)).symm
  length := (h.sideSize_eq side).symm

/-- Along the walk over the left side and then the right one, the numbers of the nodes are counted up
from one to the number of all nodes. Each walk meets what the roots of its side reach, in pre-order,
and a node that the roots reach is met on the side that its number tells. -/
theorem walk_in_order {b : Builder} (hb : b.Reachable) {roots roots' : List Key}
    (hp : b.nodes.index roots roots' = .ok p) :
    (p.walk .lhs ++ p.walk .rhs).map (·.label.id) = List.range' 1 p.size ∧
      (∀ side, p.InOrder b.nodes side (side.pick roots roots')) ∧
      ∀ k, b.nodes.Reaches (roots ++ roots') k →
        ∃ t, p.node k = .ok t ∧ ∀ side, p.side t.label = side ↔ t ∈ p.walk side := by
  have hn := hb.sound.coherent
  obtain ⟨lhs, rhs, rfl, rfl, h⟩ := hn.indexes hp
  refine ⟨h.ids_all, fun side => ?_, fun k hk => ?_⟩
  · have hside := h.inOrder hn side
    cases side with
    | lhs => exact hside
    | rhs => exact hside
  · obtain ⟨t, ht, hnode, -⟩ := h.node_of_reaches hn hk
    exact ⟨t, hnode, fun side => h.side_eq_iff ht⟩

/-- Two trees on the left, one of them a list around a list, and a tree on the right. -/
theorem walk_in_order_nested :
    ∃ p,
      ((Builder.empty.buildAll
          [.list ⟨[], "("⟩ [.list ⟨[], "["⟩ [.atom ⟨[], "x", .normal⟩] ⟨[], "]"⟩] ⟨[], ")"⟩,
            .atom ⟨[], "y", .normal⟩]).2.buildAll
        [.atom ⟨[], "x", .normal⟩]).2.nodes.index [2, 3] [4] = .ok p ∧
      (p.walk .lhs ++ p.walk .rhs).map (·.label.id) = List.range' 1 p.size ∧
      (∀ side, (p.walk side).length = p.sideSize side) ∧
      ∃ t, p.node 4 = .ok t ∧ t ∈ p.walk .rhs ∧ p.side t.label = .rhs := by
  obtain ⟨lhs, rhs, b, b', p, hbefore, hafter, hp⟩ :=
    Builder.Reachable.empty.sound.exists_index
      [.list ⟨[], "("⟩ [.list ⟨[], "["⟩ [.atom ⟨[], "x", .normal⟩] ⟨[], "]"⟩] ⟨[], ")"⟩,
        .atom ⟨[], "y", .normal⟩]
      [.atom ⟨[], "x", .normal⟩]
  obtain rfl : [2, 3] = lhs := Except.ok.inj (congrArg Prod.fst hbefore)
  obtain rfl := congrArg Prod.snd hbefore
  obtain rfl : [4] = rhs := Except.ok.inj (congrArg Prod.fst hafter)
  obtain rfl := congrArg Prod.snd hafter
  obtain ⟨hids, hsides, hnode⟩ := walk_in_order (.buildAll _ (.buildAll _ .empty)) hp
  obtain ⟨t, ht, hside⟩ := hnode 4 (.root (by simp))
  obtain ⟨u, hu, hfound⟩ := ((hsides .rhs).reaches_iff 4).mp (.root (by simp [Side.pick]))
  obtain rfl := Except.ok.inj (ht.symm.trans hfound)
  exact ⟨p, hp, hids, fun side => (hsides side).length, t, ht, hu, (hside .rhs).mpr hu⟩

end Pair

end TwinForest
